import Sprout.Proofs.Emission.Acceptance
import Sprout.Proofs.Relocation.Parsing
import Sprout.Proofs.Statements.Runs

namespace Sprout

variable (f : Position → Position)

/-- The statement with all its positions moved. -/
def Statement.relocate (s : Statement) : Statement :=
  ⟨s.kind, s.lead.relocate f, s.rest.map (Token.relocate f)⟩

/-- The declaration with all its positions moved. -/
def Declaration.relocate (d : Declaration) : Declaration :=
  ⟨d.keyword.relocate f, d.name.relocate f, d.others.map (Token.relocate f),
    d.type.map (Expr.relocate f), d.initializers.map (Expr.relocate f)⟩

/-- The binding with its name moved. -/
def Binding.relocate (b : Binding) : Binding :=
  { b with name := b.name.relocate f }

/-- The plan with its names moved. -/
def Declaration.Plan.relocate (plan : Declaration.Plan) : Declaration.Plan :=
  { plan with bindings := plan.bindings.map (Binding.relocate f) }

/-- The assignment with all its positions moved. -/
def Assignment.relocate (a : Assignment) : Assignment :=
  ⟨a.operator.relocate f, a.targets.map (Expr.relocate f), a.values.map (Expr.relocate f)⟩

/-- The header with the variable it declares moved. -/
def LoopHeader.relocate (header : LoopHeader) : LoopHeader :=
  { header with declares := header.declares.map fun own => { own with position := f own.position } }

/-- The header with the variable it declares moved, if it is that of a loop. -/
def Header.relocate : Header → Header
  | .loop header => .loop (header.relocate f)
  | other => other

/-- The state with its warnings and its header moved. -/
def Emission.relocate (e : Emission) : Emission :=
  { e with
    diagnostics := e.diagnostics.map (Diagnostic.relocate f)
    pending := e.pending.map (Header.relocate f) }

@[simp] theorem Statement.tokens_relocate (s : Statement) :
    (s.relocate f).tokens = s.tokens.map (Token.relocate f) := rfl

@[simp] theorem Declaration.names_relocate (d : Declaration) :
    (d.relocate f).names = d.names.map (Token.relocate f) := rfl

section Carries

variable {ε α β γ δ : Type}

/-- Whether a check that succeeds goes on to do so at other positions, with its result moved by `g`
and with its warnings moved. -/
def Checked.Carries (g : α → β) (x : Checked ε α) (y : Checked ε β) : Prop :=
  ∀ a, x.outcome = .ok a →
    y.outcome = .ok (g a) ∧ y.warnings = x.warnings.map (Diagnostic.relocate f)

namespace Checked

variable {f} {g : α → β} {k : γ → δ} {x : Checked ε α} {y : Checked ε β}

/-- A result without warnings is carried over as soon as the result is. -/
theorem Carries.pure {a : α} {b : β} (h : b = g a) :
    Carries f g (pure a : Checked ε α) (pure b) := by
  subst h
  intro c hc
  cases hc
  exact ⟨rfl, rfl⟩

/-- Checks that go on with each other are carried over part by part. The second part matters for the
results of the first one only. -/
theorem Carries.bind {next : α → Checked ε γ} {next' : β → Checked ε δ} (hx : Carries f g x y)
    (hnext : ∀ a, x.outcome = .ok a → Carries f k (next a) (next' (g a))) :
    Carries f k (x >>= next) (y >>= next') := by
  intro c hc
  obtain ⟨a, ha, hc⟩ := outcome_bind_eq_ok_iff.1 hc
  obtain ⟨hy, hwarnings⟩ := hx a ha
  obtain ⟨hc', hwarnings'⟩ := hnext a ha c hc
  change (andThen _ _).outcome = _ ∧ (andThen _ _).warnings = (andThen _ _).warnings.map _
  simp [andThen, ha, hy, hc', hwarnings, hwarnings']

/-- Nothing is asked of a check that is refused: where the original program does not compile, the
moved one may do what it likes. -/
theorem Carries.of_error {e : ε} (h : x.outcome = .error e) : Carries f g x y := by
  intro a ha
  rw [h] at ha
  cases ha

/-- A check that asks a question is carried over if the question has the same answer at the other
positions. -/
theorem Carries.ite {c c' : Prop} [Decidable c] [Decidable c'] {x' : Checked ε α}
    {y' : Checked ε β} (hc : c' ↔ c) (hpos : c → Carries f g x y)
    (hneg : ¬ c → Carries f g x' y') :
    Carries f g (if c then x else x') (if c' then y else y') := by
  by_cases h : c
  · rw [if_pos h, if_pos (hc.2 h)]
    exact hpos h
  · rw [if_neg h, if_neg (fun h' => h (hc.1 h'))]
    exact hneg h

/-- What holds of a check at other positions, in the form of an equation. -/
theorem Carries.of_relocate {x y : Check α} (h : y = x.relocate f) : Carries f id x y := by
  subst h
  intro a ha
  exact ⟨by rw [Checked.relocate, ha]; rfl, rfl⟩

end Checked

variable {f} {g : α → β}

/-- A check of an expression is carried over as one of a statement. -/
theorem carries_check {x : Check α} {y : Check β} (h : x.Carries f g y) :
    Checked.Carries f g (liftM x : Emitting α) (liftM y : Emitting β) := by
  intro a ha
  obtain ⟨hy, hwarnings⟩ := h a (outcome_monadLift_check.1 ha)
  exact ⟨outcome_monadLift_check.2 hy, hwarnings⟩

/-- A step that can only be refused is carried over if its results are. -/
theorem carries_violation {x : Except Violation α} {y : Except Violation β}
    (h : ∀ a, x = .ok a → y = .ok (g a)) :
    Checked.Carries f g (liftM x : Emitting α) (liftM y : Emitting β) := by
  intro a ha
  exact ⟨outcome_monadLift_violation.2 (h a (outcome_monadLift_violation.1 ha)), rfl⟩

/-- Reading tokens is carried over if what is read is. -/
theorem carries_malformed {x : Except (Defect Malformed) α} {y : Except (Defect Malformed) β}
    (h : ∀ a, x = .ok a → y = .ok (g a)) :
    Checked.Carries f g (liftM x : Emitting α) (liftM y : Emitting β) := by
  intro a ha
  exact ⟨outcome_monadLift_malformed.2 (h a (outcome_monadLift_malformed.1 ha)), rfl⟩

end Carries

/-- A part that is there is there at the other positions too. -/
theorem require_relocate {part : Part} {beside : Token} {run run' : List Token}
    (h : require part beside run = .ok run') :
    require part (beside.relocate f) (run.map (Token.relocate f)) =
      .ok (run'.map (Token.relocate f)) := by
  cases run with
  | nil => cases h
  | cons t run =>
    cases h
    rfl

section Unpacking

variable (scopes : Scopes)

/-- Whether a call is unpacked depends on its type, and not on where it stands. -/
theorem unpackable?_relocate (count : Nat) (es : List Expr) :
    unpackable? scopes count (es.map (Expr.relocate f)) =
      (unpackable? scopes count es).relocate f := by
  cases es with
  | nil => rfl
  | cons e es =>
    cases es with
    | cons => rfl
    | nil =>
      simp only [List.map_cons, List.map_nil, unpackable?, Expr.isCallChain_relocate]
      split
      · rfl
      · simp only [Expr.value_relocate, Checked.relocate_bind, Expr.position_relocate]
        congr
        funext call
        repeat' split
        all_goals rfl

/-- The lines for the members of an unpacked call hold no position. A warning about one of them
stands where the call does. -/
theorem relocate_memberLines (p : Position) (index : Nat) (targets : List (String × Ty))
    (members : List Ty) :
    Checked.relocate f (memberLines p index targets members) =
      memberLines (f p) index targets members := by
  induction targets generalizing index members with
  | nil => rfl
  | cons target targets ih =>
    cases members with
    | nil => rfl
    | cons member members => simp [memberLines, ih]

/-- A call that stands elsewhere is unpacked into the same lines. -/
theorem relocate_unpack (call : Typed) (members : List Ty) (targets : List (String × Ty))
    (p : Position) :
    Checked.relocate f (unpack call members targets p) = unpack call members targets (f p) := by
  simp [unpack, relocate_memberLines]

/-- What is shared among targets may be changed before or after it is shared. -/
theorem spread_map {α β : Type} (g : α → β) (count : Nat) (as : List α) :
    spread count (as.map g) = (spread count as).map g := by
  match as with
  | [] => rfl
  | [a] => simp [spread]
  | a :: b :: as => rfl

end Unpacking

namespace Declaration

/-- The names of a declaration are read at the other positions, for a name is a single identifier
wherever it stands. -/
theorem readNames_relocate {keyword : Token} {pieces : List (List Token)} {names : List Token}
    (h : readNames keyword pieces = .ok names) :
    readNames (keyword.relocate f) (pieces.map (List.map (Token.relocate f))) =
      .ok (names.map (Token.relocate f)) := by
  induction pieces generalizing names with
  | nil =>
    cases h
    rfl
  | cons piece pieces ih =>
    unfold readNames at h
    split at h
    · split at h
      · rename_i t hidentifier
        obtain ⟨others, hothers, heq⟩ := bind_eq_ok_iff.1 h
        cases heq
        simp only [List.map_cons, List.map_nil, readNames, Token.kind_relocate, hidentifier, if_true,
          ih hothers]
        rfl
      · cases h
    · cases h

/-- A run is cut at the same token, which is found by its kind. -/
theorem cut_relocate (kind : Token.Kind) (run : List Token) :
    cut kind (run.map (Token.relocate f)) =
      ((cut kind run).1.map (Token.relocate f), (cut kind run).2.map fun (mid, after) =>
        (mid.relocate f, after.map (Token.relocate f))) := by
  unfold cut
  rw [Token.splitTop_relocate]
  cases Token.splitTop (· = kind) 0 run <;> rfl

/-- The declared type is read at the other positions. -/
theorem readType_relocate {part : Option (Token × List Token)} {type : Option Expr}
    (h : readType part = .ok type) :
    readType (part.map fun (mid, after) => (mid.relocate f, after.map (Token.relocate f))) =
      .ok (type.map (Expr.relocate f)) := by
  cases part with
  | none =>
    cases h
    rfl
  | some part =>
    simp only [readType, bind_eq_ok_iff] at h
    obtain ⟨run, hrun, e, he, heq⟩ := h
    cases heq
    simp only [Option.map_some, readType, bind_eq_ok_iff]
    exact ⟨_, require_relocate f hrun, _, Expr.parseType_relocate f he, rfl⟩

/-- The initial values are read at the other positions. -/
theorem readInitializers_relocate {part : Option (Token × List Token)} {es : List Expr}
    (h : readInitializers part = .ok es) :
    readInitializers (part.map fun (mid, after) =>
      (mid.relocate f, after.map (Token.relocate f))) = .ok (es.map (Expr.relocate f)) := by
  cases part with
  | none =>
    cases h
    rfl
  | some part =>
    simp only [readInitializers, bind_eq_ok_iff] at h
    obtain ⟨run, hrun, he⟩ := h
    simp only [Option.map_some, readInitializers, bind_eq_ok_iff]
    exact ⟨_, require_relocate f hrun, Expr.parseList_relocate f he⟩

/-- A declaration is read from the moved tokens as the moved declaration. -/
theorem read_relocate {s : Statement} {d : Declaration} (h : read s = .ok d) :
    read (s.relocate f) = .ok (d.relocate f) := by
  obtain ⟨hkeyword, hnames, htype, hinitializers⟩ := read_eq_ok h
  have hnames' := readNames_relocate f hnames
  rw [← Token.splitCommas_relocate] at hnames'
  simp only [read, Statement.relocate, cut_relocate, bind_eq_ok_iff, liftM_violation_eq_ok_iff]
  refine ⟨_, hnames', ?_⟩
  simp only [names, List.map_cons, bind_eq_ok_iff, liftM_malformed_eq_ok_iff]
  refine ⟨_, readType_relocate f htype, _, readInitializers_relocate f hinitializers, ?_⟩
  rw [relocate, hkeyword]

/-- Initial values mention the same names at the other positions, so none is hidden that was not. -/
theorem checkShadowing_relocate {scopes : Scopes} {d : Declaration}
    (h : d.checkShadowing scopes = .ok ()) : (d.relocate f).checkShadowing scopes = .ok () := by
  have hreader : ∀ name, (d.relocate f).reader? name = (d.reader? name).map (Expr.relocate f) := by
    intro name
    simp only [reader?, relocate, List.find?_map]
    congr 2
    funext e
    exact Expr.mentions_relocate f name e
  have hnone : (d.names.filter (scopes.isShadowing ·.lexeme)).findSome? (fun name =>
      (d.reader? name.lexeme).map (name, ·)) = none := by
    unfold checkShadowing at h
    dsimp only at h
    split at h
    · assumption
    · cases h
  have hfilter : (d.names.map (Token.relocate f)).filter (scopes.isShadowing ·.lexeme) =
      (d.names.filter (scopes.isShadowing ·.lexeme)).map (Token.relocate f) := List.filter_map
  have hnone' : ((d.relocate f).names.filter (scopes.isShadowing ·.lexeme)).findSome? (fun name =>
      ((d.relocate f).reader? name.lexeme).map (name, ·)) = none := by
    rw [names_relocate, hfilter, List.findSome?_map]
    rw [List.findSome?_eq_none_iff] at hnone ⊢
    intro name hname
    have hunread := hnone name hname
    simp only [Option.map_eq_none_iff] at hunread
    simp [hreader, hunread]
  unfold checkShadowing
  dsimp only
  rw [hnone']

variable (scopes : Scopes) (d : Declaration)

@[simp] theorem isConstant_relocate : (d.relocate f).isConstant = d.isConstant := rfl

@[simp] theorem defaultLine_relocate (type : Ty) (name : Token) :
    defaultLine type (name.relocate f) = defaultLine type name := rfl

/-- A declaration without initial values emits the same lines elsewhere. -/
theorem planDefault_carries (type : Option Ty) :
    Checked.Carries f (Plan.relocate f) (d.planDefault type) ((d.relocate f).planDefault type) := by
  refine .ite .rfl (fun _ => .of_error rfl) fun _ => ?_
  cases type with
  | none => exact .of_error rfl
  | some type => exact .pure (by simp [Plan.relocate, Binding.relocate, Function.comp_def])

/-- A declaration that unpacks a call emits the same lines elsewhere. -/
theorem planUnpacked_carries (type : Option Ty) (call : Typed) (members : List Ty) (p : Position) :
    Checked.Carries f (Plan.relocate f) (d.planUnpacked type call members p)
      ((d.relocate f).planUnpacked type call members (f p)) := by
  simp only [planUnpacked, isConstant_relocate, names_relocate, List.zip_map_left, List.map_map,
    Function.comp_def, Prod.map, Token.lexeme_relocate]
  split
  · exact .of_error rfl
  · exact .bind (.of_relocate (relocate_unpack f call members _ p).symm) fun block _ =>
      .pure (by simp [Plan.relocate, Binding.relocate])

/-- The type of a name that declares none is the type of its value. A refusal stands where the value
does. -/
theorem relocate_inferredType (value : Typed) (name : String) (p : Position) :
    Checked.relocate f (inferredType value name p) = inferredType value name (f p) := by
  unfold inferredType
  split <;> rfl

/-- Initial values are typed alike and keep their order. -/
theorem initialValues_carries (type : Option Ty) (es : List Expr) :
    Checked.Carries f (List.map fun (e, value) => (e.relocate f, value))
      (initialValues scopes type es) (initialValues scopes type (es.map (Expr.relocate f))) := by
  induction es with
  | nil => exact .pure rfl
  | cons e es ih =>
    exact .bind (.of_relocate (Expr.initializer_relocate f scopes e type)) fun value _ =>
      .bind ih fun others _ => .pure rfl

/-- The line for one name is the same elsewhere, and the name is bound at its new position. -/
theorem planName_carries (isConstant : Bool) (declared : Option Ty) (name : Token) (e : Expr)
    (value : Typed) :
    Checked.Carries f (fun (line, b) => (line, b.relocate f))
      (planName isConstant declared name e value)
      (planName isConstant declared (name.relocate f) (e.relocate f) value) := by
  have hinferred : inferredType value name.lexeme (e.relocate f).position =
      (inferredType value name.lexeme e.position).relocate f := by
    rw [relocate_inferredType, Expr.position_relocate]
  unfold planName
  cases declared
  on_goal 1 => refine .bind (.of_relocate hinferred) fun type _ => ?_
  on_goal 2 => refine .bind (g := id) (.pure rfl) fun type _ => ?_
  all_goals
    refine .bind (.of_relocate ?_) fun text _ => ?_
    · rw [Typed.relocate_converted, Expr.position_relocate]
      rfl
    · dsimp only
      split
      · split
        · exact .of_error rfl
        · rename_i folded hfolded
          rw [id_eq, hfolded]
          exact .pure rfl
      · split <;> exact .pure rfl

/-- The lines for several names are the same elsewhere, by induction on the names. -/
theorem planNames_carries (isConstant : Bool) (declared : Option Ty)
    (entries : List (Token × Expr × Typed)) :
    Checked.Carries f (Plan.relocate f) (planNames isConstant declared entries)
      (planNames isConstant declared (entries.map fun (name, e, value) =>
        (name.relocate f, e.relocate f, value))) := by
  induction entries with
  | nil => exact .pure rfl
  | cons entry entries ih =>
    exact .bind (planName_carries f isConstant declared _ _ _) fun item _ =>
      .bind ih fun plan _ => .pure rfl

/-- A declaration with an initial value for each name, or one for all, emits the same lines
elsewhere. -/
theorem planInitialized_carries (type : Option Ty) (first : Expr) :
    Checked.Carries f (Plan.relocate f) (d.planInitialized scopes type first)
      ((d.relocate f).planInitialized scopes type (first.relocate f)) := by
  simp only [planInitialized, isConstant_relocate, names_relocate, List.length_map]
  have hcount : (d.relocate f).initializers.length = d.initializers.length := by
    simp [Declaration.relocate]
  rw [hcount]
  split
  · exact .of_error rfl
  · refine .bind (initialValues_carries f scopes type d.initializers) fun values _ => ?_
    rw [spread_map, List.zip_map]
    exact planNames_carries f d.isConstant type _

/-- A declaration at other positions comes to the same plan, once its type is known. -/
theorem planTyped_carries (type : Option Ty) :
    Checked.Carries f (Plan.relocate f)
      (match d.initializers with
        | [] => d.planDefault type
        | first :: _ => do
          match ← unpackable? scopes d.names.length d.initializers with
          | some (call, members) => d.planUnpacked type call members first.position
          | none => d.planInitialized scopes type first)
      (match (d.relocate f).initializers with
        | [] => (d.relocate f).planDefault type
        | first :: _ => do
          match ← unpackable? scopes (d.relocate f).names.length (d.relocate f).initializers with
          | some (call, members) => (d.relocate f).planUnpacked type call members first.position
          | none => (d.relocate f).planInitialized scopes type first) := by
  have hmoved : (d.relocate f).initializers = d.initializers.map (Expr.relocate f) := rfl
  cases hinitializers : d.initializers with
  | nil =>
    rw [hmoved, hinitializers]
    exact planDefault_carries f d type
  | cons first others =>
    rw [hmoved, hinitializers, names_relocate, List.length_map]
    refine .bind (.of_relocate (unpackable?_relocate f scopes _ _)) fun unpacked _ => ?_
    cases unpacked with
    | none => exact planInitialized_carries f scopes d type first
    | some pair =>
      have hplan := planUnpacked_carries f d type pair.1 pair.2 first.position
      rwa [← Expr.position_relocate f first] at hplan

/-- A declaration at other positions comes to the same plan. -/
theorem plan_carries :
    Checked.Carries f (Plan.relocate f) (d.plan scopes) ((d.relocate f).plan scopes) := by
  have htype : (d.relocate f).type = d.type.map (Expr.relocate f) := rfl
  unfold plan
  rw [htype]
  cases d.type with
  | none => exact .bind (g := id) (.pure rfl) fun type _ => planTyped_carries f scopes d type
  | some e =>
    exact .bind (.of_relocate (Expr.resolveType_relocate f scopes e)) fun resolved _ =>
      .bind (g := id) (.pure rfl) fun type _ => planTyped_carries f scopes d type

end Declaration

namespace Assignment

/-- An assignment is read from the moved tokens as the moved assignment. Its sign is found by the
kind of the token. -/
theorem read_relocate {s : Statement} {a : Assignment} (h : read s = .ok a) :
    read (s.relocate f) = .ok (a.relocate f) := by
  unfold read at h ⊢
  rw [Statement.tokens_relocate, Token.splitTop_relocate]
  split at h
  · cases h
  · rename_i before operator after hsplit
    simp only [bind_eq_ok_iff, liftM_malformed_eq_ok_iff] at h
    obtain ⟨first, hfirst, targets, htargets, second, hsecond, values, hvalues, heq⟩ := h
    cases heq
    simp only [hsplit, Option.map_some, bind_eq_ok_iff, liftM_malformed_eq_ok_iff]
    exact ⟨_, require_relocate f hfirst, _, Expr.parseList_relocate f htargets,
      _, require_relocate f hsecond, _, Expr.parseList_relocate f hvalues, rfl⟩

variable (scopes : Scopes)

/-- The targets of an assignment denote the same places. -/
theorem places_relocate (es : List Expr) :
    places scopes (es.map (Expr.relocate f)) = (places scopes es).relocate f := by
  induction es with
  | nil => rfl
  | cons e es ih =>
    simp only [List.map_cons, places, Expr.value_relocate, Checked.relocate_bind,
      Expr.position_relocate]
    congr
    funext place
    split
    · rfl
    · simp [ih]

/-- Targets and values are as many as they were. -/
theorem checkCount_relocate (targets : Nat) (es : List Expr) :
    checkCount targets (es.map (Expr.relocate f)) = (checkCount targets es).relocate f := by
  match es with
  | [] => rfl
  | [e] => rfl
  | e :: e' :: es =>
    simp only [checkCount, List.map_cons, List.length_cons, List.length_map,
      Expr.position_relocate]
    split <;> rfl

/-- Only two targets, two values and two places can be a swap. -/
theorem swap?_eq_none {targets values : List Expr} {places : List Typed}
    (h : ¬ (targets.length = 2 ∧ values.length = 2 ∧ places.length = 2)) :
    swap? targets values places = pure none := by
  unfold swap?
  split
  · exact absurd ⟨rfl, rfl, rfl⟩ h
  · rfl

/-- Two places are swapped elsewhere if they are swapped here, since a swap is seen from the texts
of both sides. -/
theorem swap?_relocate (targets values : List Expr) (places : List Typed) :
    swap? (targets.map (Expr.relocate f)) (values.map (Expr.relocate f)) places =
      (swap? targets values places).relocate f := by
  by_cases h : targets.length = 2 ∧ values.length = 2 ∧ places.length = 2
  · obtain ⟨htargets, hvalues, hplaces⟩ := h
    obtain ⟨a, b, rfl⟩ := List.length_eq_two.1 htargets
    obtain ⟨c, d, rfl⟩ := List.length_eq_two.1 hvalues
    obtain ⟨first, second, rfl⟩ := List.length_eq_two.1 hplaces
    simp only [List.map_cons, List.map_nil, swap?, Expr.name?_relocate, Expr.position_relocate]
    repeat' split
    all_goals rfl
  · rw [swap?_eq_none h, swap?_eq_none (by simpa using h)]
    rfl

/-- The lines of a plain assignment are the same elsewhere. -/
theorem plainLines_relocate (pairs : List (Typed × Expr)) :
    plainLines scopes (pairs.map fun (place, e) => (place, e.relocate f)) =
      (plainLines scopes pairs).relocate f := by
  induction pairs with
  | nil => rfl
  | cons pair pairs ih => simp [plainLines, ih, Expr.initializer_relocate]

/-- The line of a compound assignment holds no position. A warning about it stands where the value
does. -/
theorem relocate_compoundLine (op : Arithmetic) (symbol : String) (place value : Typed)
    (p : Position) :
    Checked.relocate f (compoundLine op symbol place value p) =
      compoundLine op symbol place value (f p) := by
  unfold compoundLine
  repeat' split
  · rfl
  · rfl
  · rfl
  · simp

/-- The lines of a compound assignment are the same elsewhere. -/
theorem compoundLines_relocate (op : Arithmetic) (symbol : String) (pairs : List (Typed × Expr)) :
    compoundLines scopes op symbol (pairs.map fun (place, e) => (place, e.relocate f)) =
      (compoundLines scopes op symbol pairs).relocate f := by
  induction pairs with
  | nil => rfl
  | cons pair pairs ih =>
    simp [compoundLines, ih, Expr.value_relocate, relocate_compoundLine]

/-- Each place is paired with the value that it was paired with. -/
theorem pairs_relocate (a : Assignment) (places : List Typed) :
    (a.relocate f).pairs places = (a.pairs places).map fun (place, e) => (place, e.relocate f) := by
  simp only [pairs, relocate, spread_map, List.zip_map_right]
  rfl

/-- An assignment of any form emits the same lines elsewhere: whether it is a swap, unpacks a call,
or gives its values one by one. -/
theorem assignLines_relocate (a : Assignment) (places : List Typed) :
    (a.relocate f).assignLines scopes places = (a.assignLines scopes places).relocate f := by
  have hvalues : (a.relocate f).values = a.values.map (Expr.relocate f) := rfl
  have htargets : (a.relocate f).targets = a.targets.map (Expr.relocate f) := rfl
  simp only [assignLines, hvalues, htargets, swap?_relocate, Checked.relocate_bind]
  congr
  funext swapped
  cases swapped with
  | some line => rfl
  | none =>
    simp only [unpackable?_relocate, Checked.relocate_bind]
    congr
    funext unpacked
    have hplain : (do
          checkCount places.length (a.values.map (Expr.relocate f))
          plainLines scopes ((a.relocate f).pairs places)) =
        Checked.relocate f (do
          checkCount places.length a.values
          plainLines scopes (a.pairs places)) := by
      rw [checkCount_relocate, pairs_relocate, plainLines_relocate, Checked.relocate_bind]
    cases unpacked with
    | none => exact hplain
    | some pair =>
      cases hvalues : a.values with
      | nil =>
        rw [hvalues] at hplain
        exact hplain
      | cons first others =>
        simp only [List.map_cons, Expr.position_relocate, relocate_unpack]

/-- An assignment at other positions comes to the same lines. -/
theorem lines_relocate (a : Assignment) :
    (a.relocate f).lines scopes = (a.lines scopes).relocate f := by
  have hkind : (a.relocate f).operator.kind = a.operator.kind := rfl
  have htargets : (a.relocate f).targets = a.targets.map (Expr.relocate f) := rfl
  have hvalues : (a.relocate f).values = a.values.map (Expr.relocate f) := rfl
  have hlexeme : (a.relocate f).operator.lexeme = a.operator.lexeme := rfl
  simp only [lines, htargets, places_relocate, Checked.relocate_bind, hkind]
  congr
  funext places
  split
  · rw [hvalues, checkCount_relocate, pairs_relocate, compoundLines_relocate,
      Checked.relocate_bind, hlexeme]
  · exact assignLines_relocate f scopes a places

end Assignment

/-- Expressions that are evaluated for their effect emit the same lines elsewhere. -/
theorem operationLines_relocate (scopes : Scopes) (es : List Expr) :
    operationLines scopes (es.map (Expr.relocate f)) =
      (operationLines scopes es).relocate f := by
  induction es with
  | nil => rfl
  | cons e es ih =>
    simp only [List.map_cons, operationLines, Expr.value_relocate, Checked.relocate_bind,
      Expr.position_relocate]
    congr
    funext typed
    split
    · simp [ih]
    · rfl

namespace Emission

section Blocks

variable (scopes : Scopes)

/-- A condition has the same text elsewhere. -/
theorem condition_carries (keyword : Token) (run : List Token) :
    Checked.Carries f id (condition scopes keyword run)
      (condition scopes (keyword.relocate f) (run.map (Token.relocate f))) := by
  refine .bind (carries_malformed fun _ => require_relocate f) fun run _ =>
    .bind (carries_malformed fun _ => Expr.parse_relocate f) fun e _ =>
      .bind (carries_check (.of_relocate (Expr.value_relocate f scopes e))) fun typed _ => ?_
  dsimp only [id]
  split
  · exact .pure rfl
  · exact .of_error rfl

/-- The loop variable is the same identifier elsewhere. -/
theorem declaredName?_relocate (run : List Token) :
    declaredName? (run.map (Token.relocate f)) = (declaredName? run).map (Token.relocate f) := by
  cases run with
  | nil => rfl
  | cons name run =>
    rw [List.map_cons, declaredName?, declaredName?, Token.kind_relocate]
    by_cases hidentifier : name.kind = .identifier
    · rw [if_pos hidentifier, if_pos hidentifier]
      rfl
    · rw [if_neg hidentifier, if_neg hidentifier]
      rfl

/-- The type of a loop variable is read from the same tokens elsewhere. -/
theorem loopType_carries (start : Typed) (run : List Token) :
    Checked.Carries f id (loopType scopes start run)
      (loopType scopes start (run.map (Token.relocate f))) := by
  cases run with
  | nil => exact .pure rfl
  | cons colon run =>
    refine .ite .rfl (fun _ => ?_) fun _ => .of_error rfl
    exact .bind (carries_malformed fun _ => require_relocate f) fun run _ =>
      .bind (carries_malformed fun _ => Expr.parseType_relocate f) fun e _ =>
        carries_check (.of_relocate (Expr.resolveType_relocate f scopes e))

/-- A value that is converted stands at the position of its expression, wherever that is. -/
theorem converted_carries (typed : Typed) (target : Ty) (e : Expr) :
    Checked.Carries f id (typed.converted target e.position)
      (typed.converted target (e.relocate f).position) :=
  .of_relocate (by rw [Typed.relocate_converted, Expr.position_relocate])

/-- A header that declares its variable is the same elsewhere, up to the position of the name. -/
theorem declaringHeader_carries (keyword : Token) (declaration : List Token) (e : Expr)
    (start : Typed) :
    Checked.Carries f (LoopHeader.relocate f) (declaringHeader scopes keyword declaration e start)
      (declaringHeader scopes (keyword.relocate f) (declaration.map (Token.relocate f))
        (e.relocate f) start) := by
  unfold declaringHeader
  rw [declaredName?_relocate]
  cases declaredName? declaration with
  | none => exact .of_error rfl
  | some name =>
    dsimp only [Option.map_some]
    rw [← List.map_drop]
    refine .bind (loopType_carries f scopes start _) fun type _ => ?_
    dsimp only [id]
    split
    · exact .bind (carries_check (converted_carries f start type e)) fun text _ => .pure rfl
    · exact .of_error rfl

/-- A header that reuses a variable is the same elsewhere. -/
theorem reusingHeader_carries (target : List Token) (e : Expr) (start : Typed) :
    Checked.Carries f (LoopHeader.relocate f) (reusingHeader scopes target e start)
      (reusingHeader scopes (target.map (Token.relocate f)) (e.relocate f) start) := by
  refine .bind (carries_malformed fun _ => Expr.parse_relocate f) fun named _ => ?_
  rw [Expr.name?_relocate]
  split
  · exact .of_error rfl
  · refine .bind (carries_check (.of_relocate (Expr.value_relocate f scopes named))) fun typed _ =>
      .bind (g := id) (carries_violation fun _ hmodifiable => ?_) fun _ _ => ?_
    · rw [Expr.position_relocate, ← Typed.mapError_checkModifiable]
      exact mapError_eq_ok_iff.2 hmodifiable
    · dsimp only [id]
      split
      · exact .bind (carries_check (converted_carries f start typed.type e)) fun text _ => .pure rfl
      · exact .of_error rfl

/-- An initial value mentions its own loop variable elsewhere only if it does here. -/
theorem checkStart_relocate {declaration : List Token} {e : Expr}
    (h : checkStart scopes declaration e = .ok ()) :
    checkStart scopes (declaration.map (Token.relocate f)) (e.relocate f) = .ok () := by
  unfold checkStart at h ⊢
  rw [declaredName?_relocate]
  cases hname : declaredName? declaration with
  | none => rfl
  | some name =>
    simp only [hname] at h
    simp only [Option.map_some, Token.lexeme_relocate, Expr.mentions_relocate]
    split at h
    · cases h
    · rw [if_neg ‹_›]

/-- A `for` header is the same elsewhere, up to the position of the name it declares. -/
theorem loopHeader_carries (keyword : Token) (run : List Token) :
    Checked.Carries f (LoopHeader.relocate f) (loopHeader scopes keyword run)
      (loopHeader scopes (keyword.relocate f) (run.map (Token.relocate f))) := by
  refine .bind (carries_malformed fun _ => require_relocate f) fun run _ => ?_
  rw [Token.splitTop_relocate]
  cases Token.splitTop (· = .equal) 0 run with
  | none => exact .of_error rfl
  | some parts =>
    obtain ⟨target, equal, initial⟩ := parts
    refine .bind (carries_malformed fun _ => require_relocate f) fun initial _ =>
      .bind (carries_malformed fun _ => Expr.parse_relocate f) fun e _ => ?_
    have hvalue := carries_check (.of_relocate (Expr.value_relocate f scopes e))
    cases target with
    | nil => exact .bind hvalue fun start _ => reusingHeader_carries f scopes [] e start
    | cons first declaration =>
      refine .ite .rfl (fun _ => ?_) fun _ => ?_
      · exact .bind (g := id) (carries_violation fun _ => checkStart_relocate f scopes) fun _ _ =>
          .bind hvalue fun start _ => declaringHeader_carries f scopes first declaration e start
      · exact .bind hvalue fun start _ => reusingHeader_carries f scopes _ e start

/-- The header of a block of any kind is the same elsewhere. -/
theorem headerOf_carries (s : Statement) :
    Checked.Carries f (Header.relocate f) (headerOf scopes s) (headerOf scopes (s.relocate f)) := by
  have hkind : (s.relocate f).lead.kind = s.lead.kind := rfl
  unfold headerOf
  rw [hkind]
  split
  · exact .bind (condition_carries f scopes s.lead s.rest) fun text _ => .pure rfl
  · exact .bind (condition_carries f scopes s.lead s.rest) fun text _ => .pure rfl
  · exact .bind (loopHeader_carries f scopes s.lead s.rest) fun header _ => .pure rfl

/-- The header of an `else` is the same elsewhere. -/
theorem alternativeOf_carries (s : Statement) :
    Checked.Carries f (Header.relocate f) (alternativeOf scopes s)
      (alternativeOf scopes (s.relocate f)) := by
  have hrest : (s.relocate f).rest = s.rest.map (Token.relocate f) := rfl
  unfold alternativeOf
  rw [hrest]
  cases s.rest with
  | nil => exact .pure rfl
  | cons next run =>
    refine .ite .rfl (fun _ => ?_) fun _ => .of_error rfl
    exact .bind (condition_carries f scopes next run) fun text _ => .pure rfl

/-- The bound and the step of a loop are typed alike elsewhere. -/
theorem clauseValue_relocate (clause : Clause) (e : Expr) :
    clauseValue scopes clause (e.relocate f) = (clauseValue scopes clause e).relocate f := by
  simp only [clauseValue, Expr.value_relocate, Checked.relocate_bind, Expr.position_relocate]
  congr
  funext typed
  repeat' split
  all_goals rfl

end Blocks

section States

variable {deny : Bool} {e e' : Emission} {s : Statement}

@[simp] theorem scopes_relocate (e : Emission) : (e.relocate f).scopes = e.scopes := rfl

/-- Warnings that are recorded are recorded at the other positions. Where they are denied there are
none to record. -/
theorem report_relocate {warnings : List Diagnostic} (h : e.report deny warnings = .ok e') :
    (e.relocate f).report deny (warnings.map (Diagnostic.relocate f)) = .ok (e'.relocate f) := by
  cases deny <;> cases warnings <;> cases h <;> simp [report, relocate]

/-- A name is declared elsewhere with the same symbol, and with its warning at the other
position. -/
theorem declare_relocate {name : String} {symbol : Symbol} {p : Position}
    (h : e.declare deny name symbol p = .ok e') :
    (e.relocate f).declare deny name symbol (f p) = .ok (e'.relocate f) := by
  simp only [declare, bind_eq_ok_iff] at h
  obtain ⟨⟨declared, scopes⟩, hdeclare, h⟩ := h
  simp only [declare, bind_eq_ok_iff]
  refine ⟨(declared, scopes), hdeclare, ?_⟩
  cases declared with
  | fresh =>
    cases h
    rfl
  | shadowing => exact report_relocate f h

/-- A check that is carried over is settled with the same result and with its warnings at the other
positions. -/
theorem settle_relocate {α β : Type} {g : α → β} {x : Emitting α} {y : Emitting β} {value : α}
    (hcarries : x.Carries f g y) (h : e.settle deny x = .ok (value, e')) :
    (e.relocate f).settle deny y = .ok (g value, e'.relocate f) := by
  simp only [settle, bind_eq_ok_iff, liftM_violation_eq_ok_iff] at h ⊢
  obtain ⟨result, hresult, reported, hreported, heq⟩ := h
  cases heq
  obtain ⟨houtcome, hwarnings⟩ := hcarries value hresult
  refine ⟨g value, houtcome, e'.relocate f, ?_, rfl⟩
  rw [hwarnings]
  exact report_relocate f hreported

/-- The names of a declaration are declared elsewhere, one after the other. -/
theorem bind_relocate {mutable : Bool} {bindings : List Binding}
    (h : e.bind deny mutable bindings = .ok e') :
    (e.relocate f).bind deny mutable (bindings.map (Binding.relocate f)) =
      .ok (e'.relocate f) := by
  induction bindings generalizing e with
  | nil =>
    cases h
    rfl
  | cons b bindings ih =>
    simp only [Emission.bind, bind_eq_ok_iff, mapError_eq_ok_iff] at h
    obtain ⟨e₁, hfirst, hothers⟩ := h
    simp only [List.map_cons, Emission.bind, bind_eq_ok_iff, mapError_eq_ok_iff]
    exact ⟨e₁.relocate f, declare_relocate f hfirst, ih hothers⟩

/-- A declaration that is emitted is emitted elsewhere. -/
theorem declaration_relocate (h : e.declaration deny s = .ok e') :
    (e.relocate f).declaration deny (s.relocate f) = .ok (e'.relocate f) := by
  simp only [declaration, bind_eq_ok_iff, liftM_violation_eq_ok_iff] at h
  obtain ⟨d, hread, _, hcheck, ⟨plan, e₁⟩, hsettle, e₂, hbind, heq⟩ := h
  cases heq
  simp only [declaration, bind_eq_ok_iff, liftM_violation_eq_ok_iff]
  exact ⟨d.relocate f, Declaration.read_relocate f hread, (),
    Declaration.checkShadowing_relocate f hcheck, (plan.relocate f, e₁.relocate f),
    settle_relocate f (carries_check (Declaration.plan_carries f e.scopes d)) hsettle,
    e₂.relocate f, bind_relocate f hbind, rfl⟩

/-- An assignment that is emitted is emitted elsewhere. -/
theorem assignment_relocate (h : e.assignment deny s = .ok e') :
    (e.relocate f).assignment deny (s.relocate f) = .ok (e'.relocate f) := by
  simp only [assignment, bind_eq_ok_iff] at h ⊢
  obtain ⟨a, hread, ⟨lines, e₁⟩, hsettle, heq⟩ := h
  cases heq
  have hlines := carries_check (.of_relocate (Assignment.lines_relocate f e.scopes a))
  exact ⟨a.relocate f, Assignment.read_relocate f hread, (lines, e₁.relocate f),
    settle_relocate f hlines hsettle, rfl⟩

/-- Expressions that are evaluated for their effect are emitted elsewhere. -/
theorem operation_relocate (h : e.operation deny s = .ok e') :
    (e.relocate f).operation deny (s.relocate f) = .ok (e'.relocate f) := by
  simp only [operation, bind_eq_ok_iff, liftM_malformed_eq_ok_iff] at h ⊢
  obtain ⟨es, hparse, ⟨lines, e₁⟩, hsettle, heq⟩ := h
  cases heq
  have hlines := carries_check (.of_relocate (operationLines_relocate f e.scopes es))
  exact ⟨es.map (Expr.relocate f), Expr.parseList_relocate f hparse, (lines, e₁.relocate f),
    settle_relocate f hlines hsettle, rfl⟩

/-- A block header that is taken is taken elsewhere, and waits for its brace there. -/
theorem header_relocate (h : e.header deny s = .ok e') :
    (e.relocate f).header deny (s.relocate f) = .ok (e'.relocate f) := by
  simp only [header, bind_eq_ok_iff] at h ⊢
  obtain ⟨⟨pending, e₁⟩, hsettle, heq⟩ := h
  cases heq
  exact ⟨(pending.relocate f, e₁.relocate f),
    settle_relocate f (headerOf_carries f e.scopes s) hsettle, rfl⟩

/-- An `else` that follows the block of an `if` does so elsewhere. -/
theorem alternative_relocate {closed : Option Scope.Kind}
    (h : e.alternative deny closed s = .ok e') :
    (e.relocate f).alternative deny closed (s.relocate f) = .ok (e'.relocate f) := by
  unfold alternative at h ⊢
  split at h
  · rename_i hclosed
    rw [if_pos hclosed]
    simp only [bind_eq_ok_iff] at h ⊢
    obtain ⟨⟨pending, e₁⟩, hsettle, heq⟩ := h
    cases heq
    exact ⟨(pending.relocate f, e₁.relocate f),
      settle_relocate f (alternativeOf_carries f e.scopes s) hsettle, rfl⟩
  · cases h

/-- A clause that belongs to the header in front of it does so elsewhere. What the header waits with
is moved, and the order of the clauses stays. -/
theorem clause_relocate {part : Clause} (h : e.clause deny part s = .ok e') :
    (e.relocate f).clause deny part (s.relocate f) = .ok (e'.relocate f) := by
  simp only [clause, bind_eq_ok_iff, liftM_malformed_eq_ok_iff] at h ⊢
  obtain ⟨expr, hparse, ⟨typed, e₁⟩, hsettle, h⟩ := h
  have hvalue := carries_check (.of_relocate (clauseValue_relocate f e.scopes part expr))
  refine ⟨expr.relocate f, Expr.parse_relocate f hparse, (typed, e₁.relocate f),
    settle_relocate f hvalue hsettle, ?_⟩
  split at h
  · rename_i header hpending
    have hpending' : (e₁.relocate f).pending = some (.loop (header.relocate f)) := by
      change e₁.pending = _ at hpending
      rw [relocate, hpending]
      rfl
    have hshadowed : (header.relocate f).shadowed = header.shadowed := rfl
    simp only [hpending', hshadowed, Expr.mentions_relocate]
    split at h
    · cases h
    · cases h
      cases part <;> rfl
  · cases h

/-- The word `main` is taken once, wherever it stands. Neither the scopes nor what was emitted
before hold a position. -/
theorem start_relocate (h : e.start s = .ok e') :
    (e.relocate f).start (s.relocate f) = .ok (e'.relocate f) := by
  have hrest : (s.relocate f).rest = s.rest.map (Token.relocate f) := rfl
  have hseen : (e.relocate f).seenMain = e.seenMain := rfl
  unfold start at h ⊢
  rw [hrest]
  split at h
  · cases h
  · rename_i hnil
    simp only [hnil, List.map_nil, scopes_relocate, hseen]
    split at h
    · cases h
    · rename_i hdepth
      rw [if_neg hdepth]
      split at h
      · cases h
      · rename_i hunseen
        cases h
        rw [if_neg hunseen]
        rfl

/-- The main block is opened by the same lines, none of which holds a position. -/
theorem openMain_relocate (h : e.openMain = .ok e') :
    (e.relocate f).openMain = .ok (e'.relocate f) := by
  simp only [openMain, bind_eq_ok_iff, liftM_violation_eq_ok_iff] at h ⊢
  obtain ⟨declared, hdeclare, heq⟩ := h
  cases heq
  exact ⟨declared, hdeclare, rfl⟩

/-- The block of a loop is opened elsewhere, and the loop variable is declared at its other
position. -/
theorem openLoop_relocate {header : LoopHeader} (h : e.openLoop deny header = .ok e') :
    (e.relocate f).openLoop deny (header.relocate f) = .ok (e'.relocate f) := by
  have hbound : (header.relocate f).bound = header.bound := rfl
  unfold openLoop at h ⊢
  rw [hbound]
  split at h
  · cases h
  · dsimp only at h ⊢
    split at h
    · rename_i hnone
      cases h
      have hdeclares : (header.relocate f).declares = none := by simp [LoopHeader.relocate, hnone]
      rw [hdeclares]
      rfl
    · rename_i own hown
      have hdeclares : (header.relocate f).declares =
          some { own with position := f own.position } := by simp [LoopHeader.relocate, hown]
      rw [hdeclares]
      rw [liftM_violation_eq_ok_iff] at h ⊢
      exact declare_relocate f h

/-- Text is put behind the last line whatever the positions are. -/
theorem extend_relocate (e : Emission) (text : String) :
    (e.relocate f).extend text = (e.extend text).relocate f := by
  obtain ⟨lines, scopes, diagnostics, seenMain, pending, closed⟩ := e
  cases lines <;> rfl

/-- An opening brace that is taken is taken elsewhere, whether a header of some kind waits for it or
none does. -/
theorem openBlock_relocate (h : e.openBlock deny = .ok e') :
    (e.relocate f).openBlock deny = .ok (e'.relocate f) := by
  have hpending : (e.relocate f).pending = e.pending.map (Header.relocate f) := rfl
  have hfree : { e.relocate f with pending := none } = relocate f { e with pending := none } := rfl
  unfold openBlock at h ⊢
  rw [hpending]
  dsimp only at h ⊢
  rw [hfree]
  split at h
  · rename_i hnone
    rw [hnone]
    cases h
    rfl
  · rename_i hmain
    rw [hmain]
    exact openMain_relocate f h
  · rename_i kind text hinline
    rw [hinline]
    cases h
    simp only [Option.map_some, Header.relocate, extend_relocate]
    rfl
  · rename_i kind text hblock
    rw [hblock]
    cases h
    rfl
  · rename_i header hloop
    rw [hloop]
    exact openLoop_relocate f h

/-- A closing brace that is taken is taken elsewhere. -/
theorem closeBlock_relocate {p : Position} (h : e.closeBlock p = .ok e') :
    (e.relocate f).closeBlock (f p) = .ok (e'.relocate f) := by
  simp only [closeBlock, bind_eq_ok_iff, liftM_violation_eq_ok_iff, mapError_eq_ok_iff] at h ⊢
  obtain ⟨⟨scope, scopes⟩, hleave, heq⟩ := h
  cases heq
  by_cases hmain : e.scopes.current.kind = .main
  · have hmain' : (e.relocate f).scopes.current.kind = .main := hmain
    rw [if_pos hmain] at hleave
    simp only [if_pos hmain, if_pos hmain']
    exact ⟨(scope, scopes), hleave, rfl⟩
  · have hmain' : (e.relocate f).scopes.current.kind ≠ .main := hmain
    rw [if_neg hmain] at hleave
    simp only [if_neg hmain, if_neg hmain']
    exact ⟨(scope, scopes), hleave, rfl⟩

/-- A `break` or a `continue` that is taken is taken elsewhere. -/
theorem jump_relocate (h : e.jump s = .ok e') :
    (e.relocate f).jump (s.relocate f) = .ok (e'.relocate f) := by
  have hrest : (s.relocate f).rest = s.rest.map (Token.relocate f) := rfl
  unfold jump at h ⊢
  rw [hrest]
  split at h
  · cases h
  · rename_i hnil
    simp only [hnil, List.map_nil]
    split at h
    · rename_i hloop
      cases h
      have hloop' : (e.relocate f).scopes.inLoop = true := hloop
      rw [if_pos hloop']
      rfl
    · cases h

/-- What a `return` returns has the same text elsewhere. -/
theorem resultText_relocate {scopes : Scopes} {run : List Token} {text : String}
    (h : resultText scopes run = .ok text) :
    resultText scopes (run.map (Token.relocate f)) = .ok text := by
  cases run with
  | nil => exact h
  | cons t run =>
    simp only [List.map_cons, resultText, bind_eq_ok_iff, liftM_malformed_eq_ok_iff] at h ⊢
    obtain ⟨expr, hparse, typed, htyped, h⟩ := h
    refine ⟨expr.relocate f, Expr.parse_relocate f hparse, typed, ?_, ?_⟩
    · rw [liftM_violation_eq_ok_iff] at htyped ⊢
      rw [Expr.value_relocate]
      exact mapError_eq_ok_iff.2 htyped
    · split at h
      · rename_i hinteger
        cases h
        rw [if_pos hinteger]
        rfl
      · cases h

/-- A `return` that is taken is taken elsewhere. -/
theorem result_relocate (h : e.result s = .ok e') :
    (e.relocate f).result (s.relocate f) = .ok (e'.relocate f) := by
  unfold result at h ⊢
  rw [scopes_relocate]
  split at h
  · rename_i hmain
    rw [if_pos hmain]
    obtain ⟨text, htext, heq⟩ := bind_eq_ok_iff.1 h
    cases heq
    exact bind_eq_ok_iff.2 ⟨text, resultText_relocate f htext, rfl⟩
  · cases h

/-- A statement of any kind that is emitted is emitted elsewhere. -/
theorem dispatch_relocate {closed : Option Scope.Kind} (h : dispatch deny closed e s = .ok e') :
    dispatch deny closed (e.relocate f) (s.relocate f) = .ok (e'.relocate f) := by
  have hkind : (s.relocate f).kind = s.kind := rfl
  unfold dispatch at h ⊢
  rw [hkind]
  split at h
  · exact start_relocate f h
  · exact declaration_relocate f h
  · exact declaration_relocate f h
  · exact operation_relocate f h
  · exact assignment_relocate f h
  · exact header_relocate f h
  · exact alternative_relocate f h
  · exact clause_relocate f h
  · exact clause_relocate f h
  · exact jump_relocate f h
  · exact result_relocate f h
  · exact openBlock_relocate f h
  · exact closeBlock_relocate f h

/-- A statement at other positions does the same. -/
theorem step_relocate (h : e.step deny s = .ok e') :
    (e.relocate f).step deny (s.relocate f) = .ok (e'.relocate f) := by
  have hpending : (e.relocate f).pending.isSome = e.pending.isSome := by simp [relocate]
  have hnone : (e.relocate f).pending.isNone = e.pending.isNone := by simp [relocate]
  have hkind : (s.relocate f).kind = s.kind := rfl
  unfold step at h ⊢
  rw [hpending, hnone, hkind, scopes_relocate]
  split at h
  · cases h
  · rename_i hheader
    rw [if_neg hheader]
    split at h
    · cases h
    · rename_i hglobal
      rw [if_neg hglobal]
      exact dispatch_relocate f h

/-- A program at other positions does the same, statement by statement: it is emitted with the same
lines, and with the same warnings, moved likewise. -/
theorem run_relocate {statements : List Statement} (h : run deny e statements = .ok e') :
    run deny (e.relocate f) (statements.map (Statement.relocate f)) = .ok (e'.relocate f) := by
  induction statements generalizing e with
  | nil =>
    cases h
    rfl
  | cons s statements ih =>
    obtain ⟨e₁, hstep, hrun⟩ := run_cons h
    rw [List.map_cons, run, step_relocate f hstep]
    exact ih hrun

end States

end Emission

end Sprout
