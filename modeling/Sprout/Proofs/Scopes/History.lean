import Mathlib.Data.List.Infix
import Sprout.Proofs.Outcome
import Sprout.Scope

namespace Sprout.Scopes

/-- What can be done to scopes. A history of actions knows of no tables: a scope goes by the
number of scopes around it, and stays open as long as the number of open scopes does not fall
below that. -/
inductive Action
  | enter (kind : Scope.Kind)
  | leave
  | declareVariable (name : String) (type : Ty) (mutable : Bool)
  | declareConstant (name : String) (type : Ty) (value : Constant)
deriving DecidableEq

namespace Action

/-- The name that is declared and what it is to stand for. A constant carries its value, and may not
be written. -/
def declares? : Action → Option (String × Symbol)
  | .declareVariable name type mutable => some (name, ⟨type, none, mutable⟩)
  | .declareConstant name type value => some (name, ⟨type, some value, false⟩)
  | .enter _ | .leave => none

/-- What a declaration answers, and the scopes behind an action. -/
def perform (s : Scopes) : Action → Except Violation (Option Declared × Scopes)
  | .enter kind => .ok (none, s.enter kind)
  | .leave => s.leave.map fun (_, s') => (none, s')
  | .declareVariable name type mutable =>
    (s.declareVariable name type mutable).map fun (declared, s') => (some declared, s')
  | .declareConstant name type value =>
    (s.declareConstant name type value).map fun (declared, s') => (some declared, s')

/-- How many scopes are open inside the global one behind an action, when `depth` are before it. The
global scope cannot be closed. -/
def depthAfter (depth : Nat) : Action → Nat
  | .enter _ => depth + 1
  | .leave => depth - 1
  | .declareVariable .. | .declareConstant .. => depth

end Action

/-- The scopes behind an action. One that fails leaves them as they are. -/
def act (s : Scopes) (a : Action) : Scopes :=
  match a.perform s with
  | .ok (_, s') => s'
  | .error _ => s

/-- The scopes behind a history, which starts with the global scope alone. -/
def after (history : List Action) : Scopes :=
  history.foldl act {}

/-- How many scopes are open inside the global one behind a history, when `depth` are before it. -/
def depthBehind (depth : Nat) (history : List Action) : Nat :=
  history.foldl Action.depthAfter depth

/-- A scope inside of `level` others, the innermost one at first, is not closed. -/
def StaysOpen (level : Nat) (history : List Action) : Prop :=
  ∀ start, start <+: history → level ≤ depthBehind level start

/-- The scope that is open inside of `level` others holds a name: the name was declared in it, with
success, and the scope has not been closed since. -/
def Holds (history : List Action) (level : Nat) (name : String) (symbol : Symbol) : Prop :=
  ∃ before a since, history = before ++ a :: since ∧ a.declares? = some (name, symbol) ∧
    (a.perform (after before)).isOk = true ∧ depthBehind 0 before = level ∧ StaysOpen level since

/-- A name means what the innermost scope that holds it declares. -/
def Means (history : List Action) (name : String) (symbol : Symbol) : Prop :=
  ∃ level, Holds history level name symbol ∧
    ∀ deeper other, level < deeper → ¬ Holds history deeper name other

section Levels

variable {s s' : Scopes} {name : String} {symbol : Symbol}

/-- The open scopes, from the outside in: each stands behind those around it. -/
def levels (s : Scopes) : List Scope :=
  s.all.reverse

/-- The scopes from the outside in are those around the innermost one, and that. -/
theorem levels_eq (s : Scopes) : s.levels = s.enclosing.reverse ++ [s.current] := by
  simp [levels, all]

/-- There is one level more than the depth, for the global scope. -/
theorem length_levels (s : Scopes) : s.levels.length = s.depth + 1 := by
  simp [levels_eq, depth]

/-- Scopes with the same levels are the same. -/
theorem eq_of_levels (h : s.levels = s'.levels) : s = s' := by
  obtain ⟨current, enclosing⟩ := s
  obtain ⟨current', enclosing'⟩ := s'
  have hall : current :: enclosing = current' :: enclosing' := List.reverse_injective h
  cases hall
  rfl

@[simp] theorem levels_enter (s : Scopes) (kind : Scope.Kind) :
    (s.enter kind).levels = s.levels ++ [({ kind } : Scope)] := by
  simp [levels, enter, all]

/-- Closing a block takes the innermost scope away. The global one is left, so this is not it. -/
theorem all_of_leave {closed : Scope} (h : s.leave = .ok (closed, s')) : s.all = closed :: s'.all := by
  unfold leave at h
  split at h
  · cases h
  · rename_i outer others henclosing
    cases h
    rw [all, henclosing, all]

/-- Closing a block takes the innermost kind away. -/
theorem kinds_of_leave {closed : Scope} (h : s.leave = .ok (closed, s')) :
    s.kinds = closed.kind :: s'.kinds :=
  congrArg (List.map Scope.kind) (all_of_leave h)

/-- Closing a block leaves the scopes around it. -/
theorem depth_of_leave {closed : Scope} (h : s.leave = .ok (closed, s')) :
    s'.depth + 1 = s.depth :=
  (Nat.succ.inj (congrArg List.length (all_of_leave h))).symm

/-- Closing a block takes the innermost level away. -/
theorem levels_leave {closed : Scope} (h : s.leave = .ok (closed, s')) :
    s.levels = s'.levels ++ [closed] := by
  simp [levels, all_of_leave h]

/-- A name that is declared is new to the innermost scope, which has it in front of its others. -/
theorem eq_of_declare {declared : Declared} (h : s.declare name symbol = .ok (declared, s')) :
    s.current.contains name = false ∧ s' =
      { s with current := { s.current with symbols := (name, symbol) :: s.current.symbols } } := by
  unfold declare at h
  split at h
  · cases h
  · rename_i hnew
    cases h
    exact ⟨Bool.eq_false_iff.2 hnew, rfl⟩

/-- Whether the scope at a level holds a name, and as what. -/
def heldAt (s : Scopes) (level : Nat) (name : String) : Option Symbol :=
  s.levels[level]?.bind (·.find? name)

/-- At the innermost level, a name is looked up in the innermost scope. -/
theorem heldAt_depth (s : Scopes) (name : String) :
    s.heldAt s.depth name = s.current.find? name := by
  simp [heldAt, levels_eq, depth]

/-- No scope is open further in than the innermost one. -/
theorem heldAt_eq_none {level : Nat} (h : s.depth < level) : s.heldAt level name = none := by
  have hlength := length_levels s
  rw [heldAt, List.getElem?_eq_none (by omega), Option.bind_none]

/-- Nothing is held at a level that is not open. -/
theorem le_depth_of_heldAt {level : Nat} (h : s.heldAt level name = some symbol) :
    level ≤ s.depth := by
  by_contra hlevel
  rw [heldAt_eq_none (by omega)] at h
  cases h

/-- Scopes that agree from the outside in hold the same up to there. -/
theorem heldAt_congr {level : Nat} {outer : List Scope} (h : outer <+: s.levels)
    (h' : outer <+: s'.levels) (hlevel : level < outer.length) (name : String) :
    s'.heldAt level name = s.heldAt level name := by
  obtain ⟨inner, hinner⟩ := h
  obtain ⟨inner', hinner'⟩ := h'
  rw [heldAt, heldAt, ← hinner, ← hinner', List.getElem?_append_left hlevel,
    List.getElem?_append_left hlevel]

/-- A declaration adds to the innermost scope, and to that one only. Levels further out keep what
they hold, and there is none further in. -/
theorem heldAt_declare {declared : Declared} {held : String}
    (h : s.declare name symbol = .ok (declared, s')) (level : Nat) :
    s'.heldAt level held =
      if level = s.depth ∧ held = name then some symbol else s.heldAt level held := by
  obtain ⟨-, heq⟩ := eq_of_declare h
  have hdepth : s'.depth = s.depth := by rw [heq, depth, depth]
  rcases Nat.lt_trichotomy level s.depth with hlevel | rfl | hlevel
  · have houter : s.enclosing.reverse <+: s.levels ∧ s.enclosing.reverse <+: s'.levels := by
      rw [heq, levels_eq, levels_eq]
      exact ⟨List.prefix_append .., List.prefix_append ..⟩
    rw [heldAt_congr houter.1 houter.2 (by simpa [depth] using hlevel),
      if_neg fun hinner => hlevel.ne hinner.1]
  · have hcurrent : s'.heldAt s.depth held = s'.current.find? held := by rw [← hdepth, heldAt_depth]
    rw [hcurrent, heldAt_depth, heq]
    by_cases hname : held = name
    · simp [Scope.find?, hname]
    · simp [Scope.find?, hname, List.lookup_cons, beq_false_of_ne hname]
  · have hbefore : s.heldAt level held = none := heldAt_eq_none hlevel
    have hbehind : s'.heldAt level held = none := heldAt_eq_none (hdepth ▸ hlevel)
    rw [hbefore, hbehind, if_neg fun hinner => hlevel.ne' hinner.1]

/-- Scopes that have one more inside of them hold what they hold up to there. -/
theorem heldAt_of_concat {level : Nat} {inner : Scope} (h : s'.levels = s.levels ++ [inner]) :
    s.heldAt level name = some symbol ↔ s'.heldAt level name = some symbol ∧ level ≤ s.depth := by
  have hsame : level ≤ s.depth → s'.heldAt level name = s.heldAt level name := by
    intro hlevel
    refine heldAt_congr List.prefix_rfl ⟨[inner], h.symm⟩ ?_ name
    rw [length_levels]
    omega
  constructor
  · intro hheld
    have hlevel := le_depth_of_heldAt hheld
    exact ⟨by rw [hsame hlevel, hheld], hlevel⟩
  · rintro ⟨hheld, hlevel⟩
    rwa [hsame hlevel] at hheld

/-- What a name means is what the innermost scope that holds it has for it. -/
theorem lookup_eq_some_iff :
    s.lookup name = some symbol ↔ ∃ level, s.heldAt level name = some symbol ∧
      ∀ deeper, level < deeper → s.heldAt deeper name = none := by
  have hall : s.all = s.levels.reverse := by simp [levels]
  rw [lookup, hall, List.findSome?_eq_some_iff]
  constructor
  · rintro ⟨inner, scope, outer, hsplit, hfind, hinner⟩
    have hlevels : s.levels = outer.reverse ++ scope :: inner.reverse := by
      rw [← List.reverse_reverse s.levels, hsplit]
      simp
    refine ⟨outer.length, by simp [heldAt, hlevels, hfind], fun deeper hdeeper => ?_⟩
    rw [heldAt, Option.bind_eq_none_iff]
    intro found hfound
    rw [hlevels, List.getElem?_append_right (by simpa using hdeeper.le)] at hfound
    obtain ⟨k, hk⟩ : ∃ k, deeper - outer.reverse.length = k + 1 :=
      ⟨deeper - outer.length - 1, by simp only [List.length_reverse]; omega⟩
    rw [hk, List.getElem?_cons_succ] at hfound
    exact hinner found (List.mem_reverse.1 (List.mem_of_getElem? hfound))
  · rintro ⟨level, hheld, hdeeper⟩
    obtain ⟨scope, hscope, hfind⟩ := Option.bind_eq_some_iff.1 hheld
    obtain ⟨hlevel, rfl⟩ := List.getElem?_eq_some_iff.1 hscope
    have hsplit : s.levels = s.levels.take level ++ s.levels[level] :: s.levels.drop (level + 1) := by
      rw [← List.drop_eq_getElem_cons hlevel, List.take_append_drop]
    refine ⟨(s.levels.drop (level + 1)).reverse, s.levels[level], (s.levels.take level).reverse, ?_,
      hfind, fun inner hinner => ?_⟩
    · conv_lhs => rw [hsplit]
      simp
    · obtain ⟨k, hk, rfl⟩ := List.mem_iff_getElem.1 (List.mem_reverse.1 hinner)
      have hnone := hdeeper (level + 1 + k) (by omega)
      rw [List.length_drop] at hk
      rw [heldAt, List.getElem?_eq_getElem (by omega), Option.bind_some] at hnone
      rwa [List.getElem_drop]

/-- A declaration hides another one if a scope around the innermost one holds the name. -/
theorem isShadowing_iff (hfree : s.current.find? name = none) :
    s.isShadowing name = true ↔ ∃ level held, level < s.depth ∧ s.heldAt level name = some held := by
  have hcontains : s.current.contains name = false := by simp [Scope.contains, hfree]
  rw [isShadowing, hcontains, Bool.not_false, Bool.true_and, List.any_eq_true]
  constructor
  · rintro ⟨scope, hscope, hholds⟩
    obtain ⟨held, hheld⟩ := Option.isSome_iff_exists.1 hholds
    obtain ⟨level, hlevel, rfl⟩ := List.mem_iff_getElem.1 (List.mem_reverse.2 hscope)
    have hdepth : level < s.depth := by simpa [depth] using hlevel
    refine ⟨level, held, hdepth, ?_⟩
    rw [heldAt, levels_eq, List.getElem?_append_left hlevel, List.getElem?_eq_getElem hlevel]
    exact hheld
  · rintro ⟨level, held, hlevel, hheld⟩
    have hlength : level < s.enclosing.reverse.length := by simpa [depth] using hlevel
    rw [heldAt, levels_eq, List.getElem?_append_left hlength, Option.bind_eq_some_iff] at hheld
    obtain ⟨scope, hscope, hfind⟩ := hheld
    refine ⟨scope, List.mem_reverse.1 (List.mem_of_getElem? hscope), ?_⟩
    simp [Scope.contains, hfind]

end Levels

section Actions

variable {s : Scopes} {a : Action} {name : String} {symbol : Symbol}

/-- Variables and constants are declared in the same way. -/
theorem perform_of_declares (h : a.declares? = some (name, symbol)) :
    a.perform s = (s.declare name symbol).map fun (declared, s') => (some declared, s') := by
  cases a with
  | enter | leave => cases h
  | declareVariable | declareConstant =>
    cases h
    rfl

/-- A declaration opens and closes nothing. -/
theorem depthAfter_of_declares (h : a.declares? = some (name, symbol)) (depth : Nat) :
    a.depthAfter depth = depth := by
  cases a with
  | enter | leave => cases h
  | declareVariable | declareConstant => rfl

/-- What is refused leaves the scopes as they are. -/
theorem act_of_error {violation : Violation} (h : a.perform s = .error violation) : s.act a = s := by
  rw [act, h]

/-- A block is closed unless the global scope is the only one. -/
theorem leave_cases (s : Scopes) :
    (s.depth = 0 ∧ s.act .leave = s ∧ ∃ violation, s.leave = .error violation) ∨
      (s.depth ≠ 0 ∧ ∃ closed, s.leave = .ok (closed, s.act .leave)) := by
  unfold act Action.perform leave depth
  cases s.enclosing with
  | nil => exact .inl ⟨rfl, rfl, _, rfl⟩
  | cons outer others => exact .inr ⟨by simp, _, rfl⟩

/-- A name is declared unless the innermost scope holds it. -/
theorem declare_cases (s : Scopes) (name : String) (symbol : Symbol) :
    (∃ held violation, s.current.find? name = some held ∧
        s.declare name symbol = .error violation) ∨
      (s.current.find? name = none ∧ ∃ s', s.declare name symbol =
        .ok (if s.isShadowing name then .shadowing else .fresh, s')) := by
  unfold declare
  cases hfind : s.current.find? name with
  | none => exact .inr ⟨rfl, _, by simp [Scope.contains, hfind]; rfl⟩
  | some held => exact .inl ⟨held, _, rfl, by simp [Scope.contains, hfind]; rfl⟩

/-- Behind a declaration the scopes are as before, or as the declaration leaves them. -/
theorem act_of_declares (h : a.declares? = some (name, symbol)) :
    (∃ held, s.current.find? name = some held ∧ (a.perform s).isOk = false ∧ s.act a = s) ∨
      (s.current.find? name = none ∧ (a.perform s).isOk = true ∧
        ∃ declared, s.declare name symbol = .ok (declared, s.act a)) := by
  rw [act, perform_of_declares h]
  rcases declare_cases s name symbol with ⟨held, violation, hheld, heq⟩ | ⟨hfree, s', heq⟩ <;> rw [heq]
  · exact .inl ⟨held, hheld, rfl, rfl⟩
  · exact .inr ⟨hfree, rfl, _, rfl⟩

/-- The depth of the scopes follows from what is done to them. -/
theorem depth_act (s : Scopes) (a : Action) : (s.act a).depth = a.depthAfter s.depth := by
  have hdeclare : ∀ {name symbol}, a.declares? = some (name, symbol) →
      (s.act a).depth = a.depthAfter s.depth := by
    intro name symbol h
    rw [depthAfter_of_declares h]
    rcases act_of_declares (s := s) h with ⟨-, -, -, heq⟩ | ⟨-, -, declared, heq⟩
    · rw [heq]
    · rw [(eq_of_declare heq).2, depth, depth]
  cases a with
  | enter kind => rfl
  | leave =>
    rcases leave_cases s with ⟨hzero, hact, -⟩ | ⟨hpos, closed, heq⟩
    · rw [hact, hzero]
      rfl
    · have hlength := congrArg List.length (levels_leave heq)
      rw [List.length_append, length_levels, length_levels, List.length_singleton] at hlength
      simp only [Action.depthAfter]
      omega
  | declareVariable | declareConstant => exact hdeclare rfl

/-- The innermost scope holds what was just declared in it. The other scopes that are open behind an
action hold what they held before. -/
theorem heldAt_act (s : Scopes) (a : Action) (level : Nat) (name : String) (symbol : Symbol) :
    (s.act a).heldAt level name = some symbol ↔
      (a.declares? = some (name, symbol) ∧ (a.perform s).isOk = true ∧ s.depth = level) ∨
        (s.heldAt level name = some symbol ∧ level ≤ (s.act a).depth) := by
  have hstays : ∀ {s' : Scopes}, s' = s → (s'.heldAt level name = some symbol ↔
      s.heldAt level name = some symbol ∧ level ≤ s'.depth) := by
    rintro s' rfl
    exact (and_iff_left_of_imp le_depth_of_heldAt).symm
  -- Both kinds of declarations do the same here: nothing if they are refused, or else they add to
  -- the innermost scope.
  have hdeclare : ∀ {name' symbol'}, a.declares? = some (name', symbol') →
      ((s.act a).heldAt level name = some symbol ↔
        (a.declares? = some (name, symbol) ∧ (a.perform s).isOk = true ∧ s.depth = level) ∨
          (s.heldAt level name = some symbol ∧ level ≤ (s.act a).depth)) := by
    intro name' symbol' h
    rcases act_of_declares (s := s) h with ⟨-, -, hrefused, heq⟩ | ⟨hfree, hok, declared, heq⟩
    · rw [hrefused]
      simpa using hstays heq
    · rw [heldAt_declare heq, depth_act, depthAfter_of_declares h, h, hok]
      by_cases hinner : level = s.depth ∧ name = name'
      · obtain ⟨rfl, rfl⟩ := hinner
        simp [heldAt_depth, hfree]
      · have hother : ¬ (name' = name ∧ s.depth = level) := fun h => hinner ⟨h.2.symm, h.1.symm⟩
        rw [if_neg hinner, and_iff_left_of_imp le_depth_of_heldAt]
        refine (or_iff_right ?_).symm
        rintro ⟨hsame, -, hlevel⟩
        cases hsame
        exact hother ⟨rfl, hlevel⟩
  cases a with
  | enter kind =>
    have hstill : s.heldAt level name = some symbol ↔
        (s.act (.enter kind)).heldAt level name = some symbol ∧ level ≤ s.depth :=
      heldAt_of_concat (levels_enter s kind)
    have hdepth : (s.act (.enter kind)).depth = s.depth + 1 := depth_act s _
    constructor
    · intro hheld
      have hlevel := le_depth_of_heldAt hheld
      have hold : level ≠ s.depth + 1 := by
        rintro rfl
        rw [← hdepth, heldAt_depth] at hheld
        cases hheld
      exact .inr ⟨hstill.2 ⟨hheld, by omega⟩, hlevel⟩
    · rintro (⟨hdeclares, -⟩ | ⟨hheld, -⟩)
      · cases hdeclares
      · exact (hstill.1 hheld).1
  | leave =>
    rcases leave_cases s with ⟨-, hact, -⟩ | ⟨-, closed, heq⟩
    · simpa [Action.declares?] using hstays hact
    · simpa [Action.declares?] using heldAt_of_concat (levels_leave heq)
  | declareVariable | declareConstant => exact hdeclare rfl

/-- Scopes further out are not touched while those inside of them stay open: whatever is done is
done to the innermost scope. -/
theorem prefix_act {base : List Scope} (hbase : base <+: s.levels) (hdepth : base.length ≤ s.depth)
    (hopen : base.length ≤ (s.act a).depth) : base <+: (s.act a).levels := by
  have hdeclare : ∀ {name symbol}, a.declares? = some (name, symbol) → base <+: (s.act a).levels := by
    intro name symbol h
    rcases act_of_declares (s := s) h with ⟨-, -, -, heq⟩ | ⟨-, -, declared, heq⟩
    · rwa [heq]
    · rw [levels_eq] at hbase
      have houter : base <+: s.enclosing.reverse :=
        List.prefix_of_prefix_length_le hbase (List.prefix_append ..) (by simpa [depth] using hdepth)
      rw [(eq_of_declare heq).2, levels_eq]
      exact houter.trans (List.prefix_append ..)
  cases a with
  | enter kind =>
    have hlevels : (s.act (.enter kind)).levels = s.levels ++ [({ kind } : Scope)] := levels_enter s kind
    rw [hlevels]
    exact hbase.trans (List.prefix_append ..)
  | leave =>
    rcases leave_cases s with ⟨-, hact, -⟩ | ⟨-, closed, heq⟩
    · rwa [hact]
    · rw [levels_leave heq] at hbase
      exact List.prefix_of_prefix_length_le hbase (List.prefix_append ..)
        (by rw [length_levels]; omega)
  | declareVariable | declareConstant => exact hdeclare rfl

end Actions

section Histories

variable {history since : List Action} {a : Action} {level : Nat} {name : String} {symbol : Symbol}

/-- Two histories are gone through one behind the other. -/
theorem after_append (history more : List Action) :
    after (history ++ more) = more.foldl act (after history) :=
  List.foldl_append

/-- The last action comes last. -/
theorem after_concat (history : List Action) (a : Action) :
    after (history ++ [a]) = (after history).act a :=
  after_append history [a]

/-- The depth is counted through two histories one behind the other. -/
theorem depthBehind_append (depth : Nat) (history more : List Action) :
    depthBehind depth (history ++ more) = depthBehind (depthBehind depth history) more :=
  List.foldl_append

/-- The depth of the scopes is the one that their history counts. -/
theorem depth_foldl (s : Scopes) (history : List Action) :
    (history.foldl act s).depth = depthBehind s.depth history := by
  induction history generalizing s with
  | nil => rfl
  | cons a history ih => rw [List.foldl_cons, ih, depth_act, depthBehind, depthBehind, List.foldl_cons]

/-- The depth of the scopes is the one that their history counts from the start. -/
theorem depth_after (history : List Action) : (after history).depth = depthBehind 0 history :=
  depth_foldl {} history

/-- A level stays open through one more action if the action does not close it. -/
theorem staysOpen_concat :
    StaysOpen level (since ++ [a]) ↔
      StaysOpen level since ∧ level ≤ depthBehind level (since ++ [a]) := by
  constructor
  · intro h
    exact ⟨fun start hstart => h start (hstart.trans (List.prefix_append ..)), h _ List.prefix_rfl⟩
  · rintro ⟨hsince, hlast⟩ start hstart
    rcases List.prefix_concat_iff.1 hstart with rfl | hstart
    · exact hlast
    · exact hsince start hstart

/-- What a scope holds behind one more action: what the action declared in it, or what it held before,
if it is still open. -/
theorem holds_concat :
    Holds (history ++ [a]) level name symbol ↔
      (a.declares? = some (name, symbol) ∧ (a.perform (after history)).isOk = true ∧
          depthBehind 0 history = level) ∨
        (Holds history level name symbol ∧ level ≤ depthBehind 0 (history ++ [a])) := by
  have hbehind : ∀ {before b since}, b.declares? = some (name, symbol) → depthBehind 0 before = level →
      depthBehind 0 (before ++ b :: since) = depthBehind level since := by
    intro before b since hdeclares hlevel
    rw [depthBehind_append, hlevel, depthBehind, List.foldl_cons, depthAfter_of_declares hdeclares]
    rfl
  constructor
  · rintro ⟨before, b, since, hhistory, hdeclares, hok, hlevel, hopen⟩
    rcases List.eq_nil_or_concat since with rfl | ⟨since, last, rfl⟩
    · obtain ⟨rfl, hlast⟩ := List.append_inj' hhistory rfl
      cases hlast
      exact .inl ⟨hdeclares, hok, hlevel⟩
    · rw [List.concat_eq_append, ← List.cons_append, ← List.append_assoc] at hhistory
      obtain ⟨rfl, hlast⟩ := List.append_inj' hhistory rfl
      cases hlast
      rw [List.concat_eq_append, staysOpen_concat] at hopen
      refine .inr ⟨⟨before, b, since, rfl, hdeclares, hok, hlevel, hopen.1⟩, ?_⟩
      rw [List.append_assoc, List.cons_append, hbehind hdeclares hlevel]
      exact hopen.2
  · rintro (⟨hdeclares, hok, hlevel⟩ | ⟨⟨before, b, since, rfl, hdeclares, hok, hlevel, hopen⟩, hle⟩)
    · refine ⟨history, a, [], rfl, hdeclares, hok, hlevel, fun start hstart => ?_⟩
      rw [List.prefix_nil.1 hstart]
      exact le_rfl
    · rw [List.append_assoc, List.cons_append, hbehind hdeclares hlevel] at hle
      exact ⟨before, b, since ++ [a], by simp, hdeclares, hok, hlevel, staysOpen_concat.2 ⟨hopen, hle⟩⟩

/-- The scope at a level holds what its history says. -/
theorem holds_iff :
    Holds history level name symbol ↔ (after history).heldAt level name = some symbol := by
  induction history using List.reverseRecOn with
  | nil =>
    have hnone : (after []).heldAt level name = none := by
      cases level <;> rfl
    rw [hnone]
    constructor
    · rintro ⟨before, b, since, hhistory, -⟩
      simp at hhistory
    · intro h
      cases h
  | append_singleton history a ih =>
    rw [holds_concat, ih, after_concat, heldAt_act, ← depth_after, ← depth_after, after_concat]

/-- A name is not held at a level if no declaration that is still open put it there. -/
theorem heldAt_eq_none_iff :
    (after history).heldAt level name = none ↔ ∀ symbol, ¬ Holds history level name symbol := by
  simp only [holds_iff, Option.eq_none_iff_forall_ne_some, ne_eq]

/-- Scopes further out are not touched by a history that leaves those inside of them open. -/
theorem prefix_foldl {base : List Scope} {s : Scopes} {inner : List Action} (hbase : base <+: s.levels)
    (hdepth : s.depth = base.length) (hopen : StaysOpen base.length inner) :
    base <+: (inner.foldl act s).levels := by
  have hbehind : ∀ start, start <+: inner → base.length ≤ (start.foldl act s).depth := by
    intro start hstart
    rw [depth_foldl, hdepth]
    exact hopen start hstart
  induction inner using List.reverseRecOn with
  | nil => exact hbase
  | append_singleton inner a ih =>
    have hinner : inner <+: inner ++ [a] := List.prefix_append ..
    rw [List.foldl_append]
    apply prefix_act
    · exact ih (staysOpen_concat.1 hopen).1 fun start hstart => hbehind start (hstart.trans hinner)
    · exact hbehind inner hinner
    · simpa using hbehind (inner ++ [a]) List.prefix_rfl

/-- A block that is opened and closed leaves nothing behind. While it is open the scopes around it
are not touched, and closing it leaves just these. -/
theorem after_block (history : List Action) (kind : Scope.Kind) {inner : List Action}
    (hopen : StaysOpen (depthBehind 0 history + 1) inner)
    (hclosed : depthBehind (depthBehind 0 history + 1) inner = depthBehind 0 history + 1) :
    after (history ++ .enter kind :: (inner ++ [.leave])) = after history := by
  rw [← depth_after, ← length_levels] at hopen hclosed
  set s := after history with hs
  set s' := inner.foldl act (s.enter kind) with hs'
  have hafter : after (history ++ .enter kind :: (inner ++ [.leave])) = s'.act .leave := by
    rw [after_append, List.foldl_cons, List.foldl_append]
    rfl
  have houter : s.levels <+: s'.levels :=
    prefix_foldl (by simp) (by rw [length_levels]; rfl) hopen
  have hdepth : s'.depth = s.levels.length := by
    rw [hs', depth_foldl, ← hclosed, length_levels]
    rfl
  rw [hafter]
  rcases leave_cases s' with ⟨hzero, -⟩ | ⟨-, closed, heq⟩
  · rw [length_levels] at hdepth
    omega
  · have hlevels := levels_leave heq
    have hlength := congrArg List.length hlevels
    rw [List.length_append, length_levels, hdepth, List.length_singleton] at hlength
    have hsame : s.levels <+: (s'.act .leave).levels := by
      refine List.prefix_of_prefix_length_le houter ?_ (by omega)
      rw [hlevels]
      exact List.prefix_append ..
    exact (eq_of_levels (hsame.eq_of_length (by omega))).symm

end Histories

section Refinement

variable {history : List Action} {a : Action} {name : String} {symbol : Symbol}

/-- A name means what the innermost scope that is still open and holds it declares. -/
theorem lookup_after_iff : (after history).lookup name = some symbol ↔ Means history name symbol := by
  rw [lookup_eq_some_iff, Means]
  refine exists_congr fun level => and_congr holds_iff.symm ?_
  simp only [heldAt_eq_none_iff]
  exact ⟨fun h deeper other hlevel => h deeper hlevel other, fun h deeper hlevel other =>
    h deeper other hlevel⟩

/-- A name means nothing if no scope that is still open holds it. -/
theorem lookup_after_eq_none_iff :
    (after history).lookup name = none ↔ ∀ level symbol, ¬ Holds history level name symbol := by
  constructor
  · intro hnone level symbol hholds
    have hheld := holds_iff.1 hholds
    obtain ⟨scope, hscope, hfind⟩ := Option.bind_eq_some_iff.1 hheld
    have hmem : scope ∈ (after history).all := List.mem_reverse.1 (List.mem_of_getElem? hscope)
    have hempty := List.findSome?_eq_none_iff.1 hnone scope hmem
    rw [hfind] at hempty
    cases hempty
  · intro hnone
    rw [Option.eq_none_iff_forall_ne_some]
    intro symbol hlookup
    obtain ⟨level, hholds, -⟩ := lookup_after_iff.1 hlookup
    exact hnone level symbol hholds

/-- A declaration is refused if the innermost scope holds the name already. -/
theorem declaration_refused_iff (h : a.declares? = some (name, symbol)) :
    (∃ violation, a.perform (after history) = .error violation) ↔
      ∃ held, Holds history (depthBehind 0 history) name held := by
  simp only [holds_iff, ← depth_after, heldAt_depth]
  rw [perform_of_declares h]
  rcases declare_cases (after history) name symbol with ⟨held, violation, hheld, heq⟩ |
    ⟨hfree, s', heq⟩
  · rw [heq]
    exact iff_of_true ⟨violation, rfl⟩ ⟨held, hheld⟩
  · rw [heq, hfree]
    apply iff_of_false
    · rintro ⟨violation, hviolation⟩
      cases hviolation
    · rintro ⟨held, hheld⟩
      cases hheld

/-- A declaration answers whether a scope around the innermost one holds the name. -/
theorem declaration_answer {answer : Option Declared} {s' : Scopes}
    (h : a.declares? = some (name, symbol)) (hok : a.perform (after history) = .ok (answer, s')) :
    (answer = some .shadowing ∧
        ∃ level held, level < depthBehind 0 history ∧ Holds history level name held) ∨
      (answer = some .fresh ∧
        ∀ level held, level < depthBehind 0 history → ¬ Holds history level name held) := by
  rw [perform_of_declares h] at hok
  rcases declare_cases (after history) name symbol with ⟨held, violation, hheld, heq⟩ |
    ⟨hfree, s', heq⟩ <;> rw [heq] at hok <;> cases hok
  have hshadowing := isShadowing_iff hfree
  simp only [← holds_iff, depth_after] at hshadowing
  by_cases hhides : (after history).isShadowing name = true
  · exact .inl ⟨by rw [if_pos hhides], hshadowing.1 hhides⟩
  · refine .inr ⟨by rw [if_neg hhides], fun level held hlevel hholds => hhides ?_⟩
    exact hshadowing.2 ⟨level, held, hlevel, hholds⟩

/-- Closing is refused if the global scope is the only open one. -/
theorem leave_refused_iff :
    (∃ violation, Action.perform (after history) .leave = .error violation) ↔
      depthBehind 0 history = 0 := by
  rw [← depth_after]
  rcases leave_cases (after history) with ⟨hzero, -, violation, heq⟩ | ⟨hpos, closed, heq⟩
  · rw [Action.perform, heq]
    exact iff_of_true ⟨violation, rfl⟩ hzero
  · rw [Action.perform, heq]
    refine iff_of_false ?_ hpos
    rintro ⟨violation, hviolation⟩
    cases hviolation

/-- What is refused might as well not have been tried. -/
theorem after_refused {violation : Violation} (h : a.perform (after history) = .error violation)
    (later : List Action) : after (history ++ a :: later) = after (history ++ later) := by
  rw [after_append, after_append, List.foldl_cons, act_of_error h]

/-- Scopes are what their history says. A name means what the innermost scope that is still open and
holds it declares, and nothing if there is none; a declaration is refused if the innermost scope holds
the name, and else answers whether a scope around it does; closing is refused if the global scope is
the only open one; what is refused changes nothing; and neither does a block, once it is closed. -/
theorem after_refines (history : List Action) :
    (after history).depth = depthBehind 0 history ∧
    (∀ name symbol, (after history).lookup name = some symbol ↔ Means history name symbol) ∧
    (∀ name, (after history).lookup name = none ↔ ∀ level symbol, ¬ Holds history level name symbol) ∧
    (∀ a name symbol, Action.declares? a = some (name, symbol) →
      ((∃ violation, a.perform (after history) = .error violation) ↔
        ∃ held, Holds history (depthBehind 0 history) name held) ∧
      ∀ answer s', a.perform (after history) = .ok (answer, s') →
        (answer = some .shadowing ∧
            ∃ level held, level < depthBehind 0 history ∧ Holds history level name held) ∨
          (answer = some .fresh ∧
            ∀ level held, level < depthBehind 0 history → ¬ Holds history level name held)) ∧
    ((∃ violation, Action.perform (after history) .leave = .error violation) ↔
      depthBehind 0 history = 0) ∧
    (∀ a violation, Action.perform (after history) a = .error violation →
      ∀ later, after (history ++ a :: later) = after (history ++ later)) ∧
    (∀ kind inner, StaysOpen (depthBehind 0 history + 1) inner →
      depthBehind (depthBehind 0 history + 1) inner = depthBehind 0 history + 1 →
      after (history ++ .enter kind :: (inner ++ [.leave])) = after history) := by
  refine ⟨depth_after history, fun name symbol => lookup_after_iff, fun name =>
    lookup_after_eq_none_iff, ?_, leave_refused_iff, ?_, ?_⟩
  · intro a name symbol h
    exact ⟨declaration_refused_iff h, fun answer s' hok => declaration_answer h hok⟩
  · intro a violation h later
    exact after_refused h later
  · intro kind inner hopen hclosed
    exact after_block history kind hopen hclosed

/-- A name that hides another one, and the one that is hidden behind the block. -/
example :
    let outer : List Action := [.declareVariable "n" (.primitive .i32) true]
    let block : List Action := outer ++ [.enter .plain, .declareConstant "n" (.primitive .i32) (.int 3)]
    (after block).lookup "n" = some ⟨.primitive .i32, some (.int 3), false⟩ ∧
      (after (block ++ [.leave, .leave])).lookup "n" = some ⟨.primitive .i32, none, true⟩ :=
  ⟨rfl, rfl⟩

end Refinement

end Sprout.Scopes
