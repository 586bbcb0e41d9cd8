import Sprout.Proofs.Capture
import Sprout.Proofs.Denial
import Sprout.Proofs.Emission.Announcements
import Sprout.Proofs.Emission.Symbols
import Sprout.Proofs.Scopes.History

namespace Sprout

/-- Whether a diagnostic is about a name that hides another one. -/
def Diagnostic.isShadowing (d : Diagnostic) : Bool :=
  d.code = some .shadowing

/-- What a deed does to scopes of which only the names matter. Braces open and close scopes,
declarations add names to the innermost one, and what a block header announces is declared behind
its brace. -/
def Deed.action : Deed → Scopes.Action
  | enter => .enter .plain
  | leave => .leave
  | declare name _ => .declareVariable name .null true

/-- Whether a scope around the innermost one holds a name: the name was declared in it, and it has
not been closed since. -/
def HeldAround (deeds : List Deed) (name : String) : Prop :=
  ∃ level symbol, level < Scopes.depthBehind 0 (deeds.map Deed.action) ∧
    Scopes.Holds (deeds.map Deed.action) level name symbol

/-- `Reports deeds warnings`: the warnings name, in order, the declarations with a position that
were made while a scope around the innermost one held the name. -/
inductive Reports : List Deed → List Diagnostic → Prop
  | nil : Reports [] []
  | hiding {deeds warnings name position} (h : Reports deeds warnings)
    (hheld : HeldAround deeds name) :
    Reports (deeds ++ [.declare name (some position)])
      (warnings ++ [Emission.shadowWarning name position])
  | silent {deeds warnings deed} (h : Reports deeds warnings)
    (hfree : ∀ name position, deed = .declare name (some position) → ¬ HeldAround deeds name) :
    Reports (deeds ++ [deed]) warnings

namespace Statement

/-- What a statement does to the names in scope, when `waiting` is announced for the next block. -/
def deeds (waiting : List Deed) (s : Statement) : List Deed :=
  match s.kind with
  | .opening => .enter :: waiting
  | .closing => [.leave]
  | .declaration | .initialization =>
    match Declaration.read s with
    | .ok d => d.names.map fun name => .declare name.lexeme (some name.position)
    | .error _ => []
  | _ => []

/-- What statements do to the names in scope, one after another. -/
def allDeeds (waiting : List Deed) : List Statement → List Deed
  | [] => []
  | s :: rest => s.deeds waiting ++ allDeeds (s.announces waiting) rest

end Statement

section Names

variable {s s' inner : Scopes} {name : String} {symbol : Symbol}

/-- A scope contains the names that it declares. -/
theorem Scope.contains_iff {scope : Scope} :
    scope.contains name = true ↔ name ∈ scope.symbols.map Prod.fst := by
  rw [contains, find?, Option.isSome_iff_ne_none, Ne, List.lookup_eq_none_iff]
  constructor
  · intro h
    by_contra hnot
    apply h
    intro entry hentry
    have hdifferent : entry.1 ≠ name := fun heq => hnot (heq ▸ List.mem_map_of_mem hentry)
    simpa using hdifferent.symm
  · intro h hnone
    obtain ⟨entry, hentry, rfl⟩ := List.mem_map.1 h
    simpa using hnone entry hentry

namespace Scopes

/-- The names declared in each open scope, from the inside out. -/
def names (s : Scopes) : List (List String) :=
  s.all.map fun scope => scope.symbols.map Prod.fst

/-- A block that is opened declares no names yet. -/
theorem names_enter (s : Scopes) (kind : Scope.Kind) : (s.enter kind).names = [] :: s.names := rfl

/-- Closing a block takes its names away. -/
theorem names_leave {closed : Scope} (h : s.leave = .ok (closed, s')) : s'.names = s.names.tail := by
  rw [names, names, all_of_leave h]
  rfl

/-- A name is declared in the innermost block. -/
theorem names_declare {declared : Declared} (h : s.declare name symbol = .ok (declared, s')) :
    s'.names = (name :: s.current.symbols.map Prod.fst) :: s.names.tail := by
  rw [(eq_of_declare h).2]
  rfl

/-- The names alone decide what the innermost scope contains. -/
theorem contains_congr (h : s.names = s'.names) (name : String) :
    s.current.contains name = s'.current.contains name := by
  have hinner : s.current.symbols.map Prod.fst = s'.current.symbols.map Prod.fst :=
    (List.cons.inj h).1
  rw [Bool.eq_iff_iff, Scope.contains_iff, Scope.contains_iff, hinner]

/-- The names alone decide what a declaration hides. -/
theorem isShadowing_congr (h : s.names = s'.names) (name : String) :
    s.isShadowing name = s'.isShadowing name := by
  have haround : ∀ scopes : List Scope, scopes.any (·.contains name) = true ↔
      ∃ names ∈ scopes.map (fun scope => scope.symbols.map Prod.fst), name ∈ names := by
    simp [Scope.contains_iff]
  rw [isShadowing, isShadowing, contains_congr h name]
  congr 1
  rw [Bool.eq_iff_iff, haround, haround]
  exact (List.cons.inj h).2 ▸ Iff.rfl

end Scopes

/-- A name that the innermost scope does not hold is held around it if declaring it hides another
one. -/
theorem heldAround_iff {deeds : List Deed}
    (hfree : (Scopes.after (deeds.map Deed.action)).current.find? name = none) :
    HeldAround deeds name ↔
      (Scopes.after (deeds.map Deed.action)).isShadowing name = true := by
  rw [Scopes.isShadowing_iff hfree, Scopes.depth_after]
  simp only [HeldAround, Scopes.holds_iff]

/-- Scopes that have the names of a history tell of a declaration what the history says, and have
its names behind the declaration. -/
theorem names_of_declares {deeds : List Deed} {declared : Declared}
    (hnames : s.names = (Scopes.after (deeds.map Deed.action)).names)
    (h : s.declare name symbol = .ok (declared, s')) (position : Option Position) :
    s'.names =
        (Scopes.after ((deeds ++ [Deed.declare name position]).map Deed.action)).names ∧
      (declared = .shadowing ↔ HeldAround deeds name) := by
  set ideal := Scopes.after (deeds.map Deed.action) with hideal
  have hbehind : Scopes.after ((deeds ++ [Deed.declare name position]).map Deed.action) =
      ideal.act (.declareVariable name .null true) := by
    rw [List.map_append, List.map_singleton, Scopes.after_concat]
    rfl
  rcases Scopes.declare_cases s name symbol with ⟨_, violation, -, heq⟩ | ⟨hfree, _, heq⟩ <;>
    rw [heq] at h <;> cases h
  have hcontains : ideal.current.contains name = false := by
    rw [← Scopes.contains_congr hnames, Scope.contains, hfree]
    rfl
  have hideal : ideal.current.find? name = none := by
    simpa [Scope.contains] using hcontains
  constructor
  · rw [hbehind]
    rcases Scopes.act_of_declares (s := ideal) (a := .declareVariable name .null true) rfl with
      ⟨held, hheld, -⟩ | ⟨-, -, declared, hdeclare⟩
    · rw [hideal] at hheld
      cases hheld
    · have hinner : s.current.symbols.map Prod.fst = ideal.current.symbols.map Prod.fst :=
        (List.cons.inj hnames).1
      rw [Scopes.names_declare heq, Scopes.names_declare hdeclare, hnames, hinner]
  · rw [heldAround_iff hideal, ← Scopes.isShadowing_congr hnames]
    cases s.isShadowing name <;> simp

/-- Scopes that have the names of a history have them still when the innermost scope is closed. -/
theorem names_of_leave {deeds : List Deed} {closed : Scope}
    (hnames : s.names = (Scopes.after (deeds.map Deed.action)).names)
    (h : s.leave = .ok (closed, s')) :
    s'.names = (Scopes.after ((deeds ++ [Deed.leave]).map Deed.action)).names := by
  set ideal := Scopes.after (deeds.map Deed.action) with hideal
  have hbehind : Scopes.after ((deeds ++ [Deed.leave]).map Deed.action) = ideal.act .leave := by
    rw [List.map_append, List.map_singleton, Scopes.after_concat]
    rfl
  have htail : s'.names = s.names.tail := Scopes.names_leave h
  rw [hbehind, htail, hnames]
  rcases Scopes.leave_cases ideal with ⟨hdepth, -⟩ | ⟨-, _, hleave⟩
  · have hlength := congrArg List.length hnames
    have hlength' := congrArg List.length htail
    rw [hnames] at hlength'
    simp only [Scopes.names, Scopes.all, List.length_map, List.length_cons, List.length_tail,
      Scopes.depth] at hlength hlength' hdepth
    omega
  · exact (Scopes.names_leave hleave).symm

end Names

namespace Emission

/-- The warnings about hidden names that an emission has recorded. -/
def shadowings (e : Emission) : List Diagnostic :=
  e.diagnostics.filter Diagnostic.isShadowing

/-- The scopes and the warnings of an emission are as the history of its statements says. -/
structure Traced (deeds : List Deed) (e : Emission) : Prop where
  names : e.scopes.names = (Scopes.after (deeds.map Deed.action)).names
  reports : Reports deeds e.shadowings

variable {deeds : List Deed} {deny : Bool} {e e' : Emission} {s : Statement}

/-- Before the first statement nothing has been done. -/
theorem traced_empty : Traced [] {} := ⟨rfl, .nil⟩

/-- Only the scopes and the warnings about names that are hidden matter. -/
theorem Traced.congr (h : e.Traced deeds) (hscopes : e'.scopes = e.scopes)
    (hshadowings : e'.shadowings = e.shadowings) : e'.Traced deeds :=
  ⟨hscopes ▸ h.names, hshadowings ▸ h.reports⟩

/-- Narrowing conversions hide no names. -/
theorem shadowings_narrowed {ε α : Type} {checked : Checked ε α} (e : Emission)
    (h : checked.Narrows) :
    shadowings { e with diagnostics := e.diagnostics ++ checked.warnings } = e.shadowings := by
  have hnone : checked.warnings.filter Diagnostic.isShadowing = [] := by
    rw [List.filter_eq_nil_iff]
    intro d hd
    obtain ⟨message, position, rfl⟩ := h d hd
    simp [Diagnostic.warning, Diagnostic.isShadowing]
  simp [shadowings, hnone]

/-- Opening a block adds a scope without names. -/
theorem Traced.enter {kind : Scope.Kind} (h : e.Traced deeds)
    (hscopes : e'.scopes = e.scopes.enter kind) (hshadowings : e'.shadowings = e.shadowings) :
    e'.Traced (deeds ++ [.enter]) := by
  refine ⟨?_, hshadowings ▸ .silent h.reports (by simp)⟩
  rw [hscopes, Scopes.names_enter, h.names, List.map_append, List.map_singleton,
    Scopes.after_concat]
  rfl

/-- A declaration adds its name, and is reported if it hides another one. -/
theorem Traced.declare {name : String} {symbol : Symbol} {position : Position}
    (h : e.Traced deeds) (hdeclare : e.declare deny name symbol position = .ok e') :
    e'.Traced (deeds ++ [.declare name (some position)]) := by
  obtain ⟨declared, scopes, hscopes, rfl⟩ := eq_of_declare hdeclare
  obtain ⟨hnames, hhides⟩ := names_of_declares h.names hscopes (some position)
  refine ⟨hnames, ?_⟩
  cases declared with
  | fresh =>
    have hsilent : ∀ name' position', Deed.declare name (some position) =
        .declare name' (some position') → ¬ HeldAround deeds name' := by
      rintro _ _ ⟨⟩ hheld
      cases hhides.2 hheld
    simpa [shadowings] using Reports.silent h.reports hsilent
  | shadowing =>
    have hheld : Reports (deeds ++ [.declare name (some position)])
        (e.shadowings ++ [shadowWarning name position]) := .hiding h.reports (hhides.1 rfl)
    simpa [shadowings, shadowWarning, Diagnostic.warning, Diagnostic.isShadowing] using hheld

/-- The names of a declaration are added one by one. -/
theorem Traced.bind {mutable : Bool} {bindings : List Binding} (h : e.Traced deeds)
    (hbind : e.bind deny mutable bindings = .ok e') :
    e'.Traced (deeds ++ (bindings.map Binding.name).map fun name =>
      .declare name.lexeme (some name.position)) := by
  induction bindings generalizing e deeds with
  | nil =>
    cases hbind
    simpa using h
  | cons b bindings ih =>
    simp only [Emission.bind, bind_eq_ok_iff, mapError_eq_ok_iff] at hbind
    obtain ⟨e₁, hfirst, hothers⟩ := hbind
    have hrest := ih (h.declare hfirst) hothers
    rwa [List.append_assoc] at hrest

/-- A declaration adds the names that it reads. -/
theorem Traced.declaration (h : e.Traced deeds) (hemit : e.declaration deny s = .ok e') :
    ∃ d, Declaration.read s = .ok d ∧
      e'.Traced (deeds ++ d.names.map fun name => .declare name.lexeme (some name.position)) := by
  obtain ⟨d, plan, bound, hread, -, hplan, hbind, rfl⟩ := eq_of_declaration hemit
  have hsettled : Traced deeds
      { e with diagnostics := e.diagnostics ++ (d.plan e.scopes).warnings } :=
    h.congr rfl (shadowings_narrowed e (d.narrows_plan e.scopes))
  have hbound := hsettled.bind hbind
  rw [Declaration.names_of_plan hplan] at hbound
  exact ⟨d, hread, hbound.congr rfl rfl⟩

/-- The brace of the main block declares the arguments, and reports nothing. -/
theorem Traced.openMain (h : e.Traced deeds) (hopen : e.openMain = .ok e') :
    e'.Traced (deeds ++ [.enter, .declare "args" none]) := by
  obtain ⟨declared, scopes, hdeclare, rfl⟩ := eq_of_openMain hopen
  have hentered : (e.enter .main "int main(int argc, char** argv) \x7b").Traced
      (deeds ++ [.enter]) := h.enter rfl rfl
  obtain ⟨hnames, -⟩ := names_of_declares hentered.names hdeclare none
  have hreports : Reports (deeds ++ [.enter] ++ [.declare "args" none]) e.shadowings :=
    .silent hentered.reports (by simp)
  rw [List.append_assoc] at hnames hreports
  exact ⟨hnames, hreports⟩

/-- The brace of a loop declares the variable of the loop. -/
theorem Traced.openLoop {header : LoopHeader} (h : e.Traced deeds)
    (hopen : e.openLoop deny header = .ok e') :
    e'.Traced (deeds ++ .enter :: (Header.loop header).deeds) := by
  obtain ⟨bound, args, -, -, hopens⟩ := eq_of_openLoop hopen
  have hentered : (e.enter .loop ("RT_FOR(" ++ args ++ ") \x7b")).Traced (deeds ++ [.enter]) :=
    h.enter rfl rfl
  obtain ⟨hdeclares, rfl⟩ | ⟨own, hdeclares, hdeclare⟩ := hopens
  · simpa [Header.deeds, hdeclares] using hentered
  · simpa [Header.deeds, hdeclares] using hentered.declare hdeclare

/-- An opening brace opens a scope and declares what waits for it. -/
theorem Traced.opens (h : e.Traced deeds) (hopens : Opens deny e e') :
    e'.Traced (deeds ++ .enter :: e.announced) := by
  have hfree : Traced deeds { e with pending := none } := h.congr rfl rfl
  cases hopens with
  | plain hpending | goesOn hpending | block hpending =>
    simp only [announced, hpending, Option.map, Option.getD]
    exact hfree.enter rfl rfl
  | main hpending hmain =>
    simp only [announced, hpending, Option.map, Option.getD]
    exact hfree.openMain hmain
  | loop hpending hloop =>
    simp only [announced, hpending, Option.map, Option.getD]
    exact hfree.openLoop hloop

/-- A closing brace closes the innermost scope, and nothing waits behind a brace. -/
theorem Traced.closeBlock {position : Position} (h : e.Traced deeds)
    (hclose : e.closeBlock position = .ok e') : e'.Traced (deeds ++ [.leave]) := by
  have hshadowings : e'.shadowings = e.shadowings := by
    rw [shadowings, diagnostics_of_closeBlock hclose, shadowings]
  refine ⟨?_, hshadowings ▸ .silent h.reports (by simp)⟩
  obtain ⟨closed, scopes, inner, hleave, -, rfl⟩ := eq_of_closeBlock hclose
  exact names_of_leave h.names hleave

/-- `Quiet e e'`: the names in scope are the same, and no hidden one is reported. -/
def Quiet (e e' : Emission) : Prop :=
  e'.scopes = e.scopes ∧ e'.shadowings = e.shadowings

/-- A check that warns only about narrowing does nothing to the names. -/
theorem Quiet.of_narrows {ε α : Type} {checked : Checked ε α} (h : checked.Narrows)
    (hscopes : e'.scopes = e.scopes)
    (hdiagnostics : e'.diagnostics = e.diagnostics ++ checked.warnings) : Quiet e e' :=
  ⟨hscopes, (congrArg (List.filter Diagnostic.isShadowing) hdiagnostics).trans
    (shadowings_narrowed e h)⟩

/-- Expressions evaluated for their effect do nothing to the names. -/
theorem operation_quiet (h : e.operation deny s = .ok e') : Quiet e e' := by
  obtain ⟨es, lines, -, -, rfl⟩ := eq_of_operation h
  exact .of_narrows (narrows_operationLines e.scopes es) rfl rfl

/-- An assignment does nothing to the names. -/
theorem assignment_quiet (h : e.assignment deny s = .ok e') : Quiet e e' := by
  obtain ⟨a, lines, -, -, rfl⟩ := eq_of_assignment h
  exact .of_narrows (a.narrows_lines e.scopes) rfl rfl

/-- A block header does nothing to the names until its brace comes. -/
theorem header_quiet (h : e.header deny s = .ok e') : Quiet e e' := by
  obtain ⟨waiting, -, rfl⟩ := eq_of_header h
  exact .of_narrows (narrows_headerOf e.scopes s) rfl rfl

/-- An `else` does nothing to the names. -/
theorem alternative_quiet {closed : Option Scope.Kind} (h : e.alternative deny closed s = .ok e') :
    Quiet e e' := by
  obtain ⟨-, waiting, -, rfl⟩ := eq_of_alternative h
  exact .of_narrows (narrows_alternativeOf e.scopes s) rfl rfl

/-- A clause of a loop does nothing to the names. -/
theorem clause_quiet {part : Clause} (h : e.clause deny part s = .ok e') : Quiet e e' := by
  obtain ⟨expr, typed, header, -, -, -, -, rfl⟩ := eq_of_clause h
  exact .of_narrows (narrows_clauseValue e.scopes part expr) rfl rfl

/-- The word `main` does nothing to the names until its brace comes. -/
theorem start_quiet (h : e.start s = .ok e') : Quiet e e' := by
  obtain ⟨-, -, -, rfl⟩ := eq_of_start h
  exact ⟨rfl, rfl⟩

/-- A `break` or a `continue` does nothing to the names. -/
theorem jump_quiet (h : e.jump s = .ok e') : Quiet e e' := by
  obtain ⟨-, -, rfl⟩ := eq_of_jump h
  exact ⟨rfl, rfl⟩

/-- A `return` does nothing to the names. -/
theorem result_quiet (h : e.result s = .ok e') : Quiet e e' := by
  obtain ⟨-, text, -, rfl⟩ := eq_of_result h
  exact ⟨rfl, rfl⟩

/-- A statement does to the scopes what its deeds say, and reports as they say. -/
theorem Traced.step (h : e.Traced deeds) (hstep : e.step deny s = .ok e') :
    e'.Traced (deeds ++ s.deeds e.announced) := by
  have hopened : Traced deeds { e with closed := none } := h.congr rfl rfl
  have hquiet : Quiet { e with closed := none } e' → s.deeds e.announced = [] →
      e'.Traced (deeds ++ s.deeds e.announced) := by
    rintro ⟨hscopes, hshadowings⟩ hnone
    rw [hnone, List.append_nil]
    exact h.congr hscopes hshadowings
  cases Act.of_step hstep with
  | start hkind _ hstart => exact hquiet (start_quiet hstart) (by simp [Statement.deeds, hkind])
  | declaration hkind _ hdeclaration =>
    obtain ⟨d, hread, htraced⟩ := hopened.declaration hdeclaration
    rcases hkind with hkind | hkind <;> simpa [Statement.deeds, hkind, hread] using htraced
  | operation hkind _ _ hoperation =>
    exact hquiet (operation_quiet hoperation) (by simp [Statement.deeds, hkind])
  | assignment hkind _ _ hassignment =>
    exact hquiet (assignment_quiet hassignment) (by simp [Statement.deeds, hkind])
  | header hkind _ _ hheader =>
    exact hquiet (header_quiet hheader) (by simp [Statement.deeds, hkind])
  | alternative hkind _ _ halternative =>
    exact hquiet (alternative_quiet halternative) (by simp [Statement.deeds, hkind])
  | bound hkind hclause | step hkind hclause =>
    exact hquiet (clause_quiet hclause) (by simp [Statement.deeds, hkind])
  | jump hkind _ _ hjump => exact hquiet (jump_quiet hjump) (by simp [Statement.deeds, hkind])
  | result hkind _ _ hresult =>
    exact hquiet (result_quiet hresult) (by simp [Statement.deeds, hkind])
  | opening hkind _ hopens =>
    have htraced : e'.Traced (deeds ++ .enter :: e.announced) := hopened.opens hopens
    simpa only [Statement.deeds, hkind] using htraced
  | closing hkind _ hcloses =>
    simpa only [Statement.deeds, hkind] using hopened.closeBlock hcloses

/-- So does a run. -/
theorem Traced.run {statements : List Statement} (h : e.Traced deeds)
    (hleads : ∀ s ∈ statements, s.kind = .header →
      s.lead.kind = .keyword .ifWord ∨ s.lead.kind = .keyword .whileWord ∨
        s.lead.kind = .keyword .forWord)
    (hrun : run deny e statements = .ok e') :
    e'.Traced (deeds ++ Statement.allDeeds e.announced statements) := by
  induction statements generalizing e deeds with
  | nil =>
    cases hrun
    simpa [Statement.allDeeds] using h
  | cons s statements ih =>
    rw [List.forall_mem_cons] at hleads
    obtain ⟨e₁, hstep, hrest⟩ := run_cons hrun
    have htraced := ih (h.step hstep) hleads.2 hrest
    rwa [announced_of_step hleads.1 hstep, List.append_assoc] at htraced

end Emission

/-- The warnings about hidden names that come with a program name, in order and one for one, the
declarations of the program that were made while a scope around the innermost one held the name.
Only the arguments, which the brace of the main block declares, are never among them. -/
theorem Source.compile_reports {source : Source} {options : Options} {artifact : Artifact}
    (h : source.compile options = .ok artifact) :
    ∃ tokens statements, source.significant = .ok tokens ∧
      source.statements tokens = .ok statements ∧
      Reports (Statement.allDeeds [] statements)
        (artifact.diagnostics.filter Diagnostic.isShadowing) := by
  obtain ⟨tokens, statements, e, htokens, hstatements, hemission, -, hdiagnostics⟩ :=
    eq_of_compile h
  obtain ⟨hrun, -⟩ := eq_of_emission hemission
  have hgroup : Statement.group tokens = .ok statements := mapError_eq_ok_iff.1 hstatements
  have htraced := Emission.traced_empty.run (fun s hs => Statement.lead_of_header hgroup hs) hrun
  have hreports : Reports (Statement.allDeeds [] statements) e.shadowings := htraced.reports
  refine ⟨tokens, statements, htokens, hstatements, ?_⟩
  simpa [hdiagnostics, Diagnostic.summary, Diagnostic.isShadowing, Emission.shadowings] using
    hreports

/-- A program that hides a constant and a loop variable. -/
private def hidingNames : Source :=
  ⟨"hiding", "const n=3\nmain\x7b\nvar n=4\nfor var i=0;2\x7b\nfor var i=0;n\x7b\x7d\x7d\x7d"⟩

/-- One name hides another by a declaration, and one by the header of a loop. -/
theorem hidingNames_reports :
    ∃ artifact, hidingNames.compile {} = .ok artifact ∧
      artifact.diagnostics.filter Diagnostic.isShadowing =
        [Emission.shadowWarning "n" ⟨3, 5⟩, Emission.shadowWarning "i" ⟨5, 9⟩] ∧
      ∃ tokens statements, hidingNames.significant = .ok tokens ∧
        hidingNames.statements tokens = .ok statements ∧
        Reports (Statement.allDeeds [] statements)
          (artifact.diagnostics.filter Diagnostic.isShadowing) := by
  have hchecked : (do
      let artifact ← hidingNames.compile {}
      pure (artifact.diagnostics.filter Diagnostic.isShadowing)).toOption =
        some [Emission.shadowWarning "n" ⟨3, 5⟩, Emission.shadowWarning "i" ⟨5, 9⟩] := by
    decide +kernel
  obtain ⟨artifact, hcompile, hwarnings⟩ := bind_eq_ok_iff.1 (eq_ok_of_toOption hchecked)
  exact ⟨artifact, hcompile, Except.ok.inj hwarnings, Source.compile_reports hcompile⟩

/-- A program whose arguments hide a variable of the same name. -/
private def hiddenVariable : Source :=
  ⟨"hidden", "var args: i32\nmain \x7b\n\x7d\n"⟩

/-- The arguments are declared where a scope around the main block holds their name, and nothing is
reported. -/
theorem hiddenVariable_reports_nothing :
    ∃ artifact tokens statements before, hiddenVariable.compile {} = .ok artifact ∧
      hiddenVariable.significant = .ok tokens ∧ hiddenVariable.statements tokens = .ok statements ∧
      Statement.allDeeds [] statements = before ++ [.declare "args" none, .leave] ∧
      HeldAround before "args" ∧
      artifact.diagnostics.filter Diagnostic.isShadowing = [] := by
  have hchecked : (do
      let artifact ← hiddenVariable.compile {}
      let tokens ← hiddenVariable.significant
      let statements ← hiddenVariable.statements tokens
      pure (Statement.allDeeds [] statements,
        artifact.diagnostics.filter Diagnostic.isShadowing)).toOption =
        some ([.declare "args" (some ⟨1, 5⟩), .enter, .declare "args" none, .leave], []) := by
    decide +kernel
  have hok := eq_ok_of_toOption hchecked
  simp only [bind_eq_ok_iff] at hok
  obtain ⟨artifact, hcompile, tokens, htokens, statements, hstatements, heq⟩ := hok
  obtain ⟨hdeeds, hwarnings⟩ := Prod.mk.inj (Except.ok.inj heq)
  have hheld : HeldAround [.declare "args" (some ⟨1, 5⟩), .enter] "args" :=
    (heldAround_iff rfl).2 rfl
  exact ⟨artifact, tokens, statements, _, hcompile, htokens, hstatements, hdeeds, hheld, hwarnings⟩

end Sprout
