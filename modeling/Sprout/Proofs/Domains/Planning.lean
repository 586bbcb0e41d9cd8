import Sprout.Proofs.Domains.Slices
import Sprout.Proofs.Emission.Acceptance

namespace Sprout

open Token

variable {α β : Type} {as : List α} {count : Nat}

/-- A list as long as `count` asks for, member by member: the one at an index, or the only one. -/
def spread? (count : Nat) (as : List α) : Option (List α) :=
  (List.range count).mapM fun i => as[if as.length = 1 then 0 else i]?

/-- A partial operation that has a result for every member has as many results as members. -/
theorem length_of_mapM {f : α → Option β} {bs : List β} (h : as.mapM f = some bs) :
    bs.length = as.length := by
  induction as generalizing bs with
  | nil =>
    cases h
    rfl
  | cons a as ih =>
    rw [List.mapM_cons] at h
    obtain ⟨b, -, h⟩ := Option.bind_eq_some_iff.1 h
    obtain ⟨others, hothers, h⟩ := Option.bind_eq_some_iff.1 h
    cases h
    simp [ih hothers]

/-- Every index of a list finds its member. -/
theorem mapM_getElem? (as : List α) : (List.range as.length).mapM (fun i => as[i]?) = some as := by
  induction as with
  | nil => rfl
  | cons a as ih =>
    rw [List.length_cons, List.range_succ_eq_map, List.mapM_cons, List.mapM_map]
    simp only [Function.comp_def, List.getElem?_cons_succ, ih]
    rfl

/-- A single member, or one for each target, can be found by the index of each target. -/
theorem spread?_eq (h : as.length = 1 ∨ as.length = count) :
    spread? count as = some (spread count as) := by
  match as with
  | [a] =>
    have hfound : ∀ i ∈ List.range count, [a][if [a].length = 1 then 0 else i]? = some a :=
      fun i _ => rfl
    rw [spread?, mapM_eq_some_map hfound, List.map_const', List.length_range, spread]
  | [] =>
    obtain rfl : count = 0 := by simpa [eq_comm] using h
    rfl
  | first :: second :: others =>
    obtain rfl : (first :: second :: others).length = count := by simpa using h
    exact mapM_getElem? (first :: second :: others)

/-- Sharing pairs among targets is sharing their halves. -/
theorem zip_spread (count : Nat) (pairs : List (α × β)) :
    (spread count (pairs.map Prod.fst)).zip (spread count (pairs.map Prod.snd)) =
      spread count pairs := by
  match pairs with
  | [] => rfl
  | [pair] => simp [spread]
  | first :: second :: others => simp [spread, List.zip_map']

/-- The types that a call returns, which must be several. -/
def Ty.members? : Ty → Option (List Ty)
  | .tuple members => some members
  | _ => none

namespace Declaration

variable {scopes : Scopes} {d : Declaration} {type : Option Ty}

/-- A declaration with initializers of its own, each found by the index of its name. -/
def planInitialized? (scopes : Scopes) (d : Declaration) (type : Option Ty) :
    Checked (Option Violation) Plan :=
  let count := d.initializers.length
  if count ≠ 1 && count ≠ d.names.length then do
    let first ← Checked.demand d.initializers[0]?
    ((Fault.initializerCount (.of count d.names.length)).raise first.position).mapError some
  else do
    let values ← (initialValues scopes type d.initializers).mapError some
    let exprs ← Checked.demand (spread? d.names.length d.initializers)
    let values ← Checked.demand (spread? d.names.length (values.map Prod.snd))
    (planNames d.isConstant type (d.names.zip (exprs.zip values))).mapError some

/-- What a declaration of names of a given type amounts to. Names that take the values of one call
need the types of these. -/
def planTyped? (scopes : Scopes) (d : Declaration) (type : Option Ty) :
    Checked (Option Violation) Plan :=
  if d.initializers.isEmpty then (d.planDefault type).mapError some
  else do
    match ← (unpackable? scopes d.names.length d.initializers).mapError some with
    | some (call, _) => do
      let members ← Checked.demand call.type.members?
      let first ← Checked.demand d.initializers[0]?
      (d.planUnpacked type call members first.position).mapError some
    | none => d.planInitialized? scopes type

/-- What a declaration amounts to. -/
def plan? (scopes : Scopes) (d : Declaration) : Checked (Option Violation) Plan :=
  match d.type with
  | none => d.planTyped? scopes none
  | some e => do
    let type ← (e.resolveType scopes).mapError some
    d.planTyped? scopes (some type)

/-- Initial values are planned without a crash, since their count has been checked against the names
before they are found by index. -/
theorem planInitialized?_eq {first : Expr} {others : List Expr}
    (hinitializers : d.initializers = first :: others) :
    d.planInitialized? scopes type = (d.planInitialized scopes type first).mapError some := by
  simp only [planInitialized?, planInitialized]
  split
  · simp [hinitializers]
  · rename_i hcount
    have hlength : d.initializers.length = 1 ∨ d.initializers.length = d.names.length := by
      by_contra hnot
      push Not at hnot
      simp [hnot] at hcount
    rw [Checked.mapError_bind]
    refine Checked.bind_congr_of_ok fun values hvalues => ?_
    rw [Checked.outcome_mapError_eq_ok_iff] at hvalues
    obtain ⟨hexprs, -⟩ := eq_of_initialValues hvalues
    have hvalues : (values.map Prod.snd).length = d.initializers.length := by
      simp [← hexprs]
    rw [spread?_eq hlength, spread?_eq (by rwa [hvalues]), Checked.demand_some_bind,
      Checked.demand_some_bind, ← hexprs, zip_spread]

/-- A declaration is planned without a crash, with initial values or without: its names and values
were counted before any is found by its index. -/
theorem planTyped?_eq (scopes : Scopes) (d : Declaration) (type : Option Ty) :
    d.planTyped? scopes type = Checked.mapError some (match d.initializers with
      | [] => d.planDefault type
      | first :: _ => do
        match ← unpackable? scopes d.names.length d.initializers with
        | some (call, members) => d.planUnpacked type call members first.position
        | none => d.planInitialized scopes type first) := by
  rw [planTyped?]
  cases hinitializers : d.initializers with
  | nil => rfl
  | cons first others =>
    rw [← hinitializers]
    simp only [hinitializers, List.isEmpty_cons, Bool.false_eq_true, if_false, Checked.mapError_bind]
    refine Checked.bind_congr_of_ok fun unpacked hunpacked => ?_
    rw [Checked.outcome_mapError_eq_ok_iff] at hunpacked
    cases unpacked with
    | none => exact planInitialized?_eq hinitializers
    | some unpacked =>
      obtain ⟨call, members⟩ := unpacked
      obtain ⟨e, -, -, hmembers, -⟩ := eq_of_unpackable hunpacked
      simp [hmembers, Ty.members?]

/-- The values of a declaration are found where they are looked for. -/
theorem plan?_eq (scopes : Scopes) (d : Declaration) :
    d.plan? scopes = (d.plan scopes).mapError some := by
  rw [plan?, plan]
  cases d.type with
  | none => exact planTyped?_eq scopes d none
  | some e =>
    rw [Checked.mapError_bind]
    refine Checked.bind_congr_of_ok fun type _ => ?_
    rw [Checked.pure_bind]
    exact planTyped?_eq scopes d (some type)

end Declaration

namespace Assignment

variable {scopes : Scopes} {a : Assignment}

/-- Refuses a number of values that is neither one nor the number of targets. -/
def checkCount? (targets : Nat) (values : List Expr) : Checked (Option Violation) Unit :=
  if values.length = 1 || values.length = targets then pure ()
  else do
    let first ← Checked.demand values[0]?
    ((Fault.valueCount (.of values.length targets)).raise first.position).mapError some

/-- The line that swaps two variables, when an assignment does just that. -/
def swapped? (targets values : List Expr) (places : List Typed) :
    Checked (Option Violation) (Option Line) :=
  match targets.mapM Expr.name?, values.mapM Expr.name? with
  | some left, some right =>
    if left.length ≠ 2 || right.length ≠ 2 then pure none
    else do
      let x ← Checked.demand left[0]?
      let y ← Checked.demand left[1]?
      if x = y || x ≠ (← Checked.demand right[1]?) || y ≠ (← Checked.demand right[0]?) then pure none
      else
        let first ← Checked.demand places[0]?
        let second ← Checked.demand places[1]?
        if first.type = second.type then
          pure (some (.flat ("std::swap(" ++ first.text ++ ", " ++ second.text ++ ");")))
        else
          let target ← Checked.demand targets[0]?
          ((Fault.swapTypes x y first.type second.type).raise target.position).mapError some
  | _, _ => pure none

/-- The lines of a plain assignment. -/
def assignLines? (scopes : Scopes) (a : Assignment) (places : List Typed) :
    Checked (Option Violation) (List Line) := do
  match ← swapped? a.targets a.values places with
  | some line => pure [line]
  | none =>
    match ← (unpackable? scopes places.length a.values).mapError some with
    | some (call, members) => do
      let first ← Checked.demand a.values[0]?
      (unpack call members (places.map fun p => (p.text, p.type)) first.position).mapError some
    | none => do
      checkCount? places.length a.values
      let values ← Checked.demand (spread? places.length a.values)
      (plainLines scopes (places.zip values)).mapError some

/-- The lines of an assignment. -/
def lines? (scopes : Scopes) (a : Assignment) : Checked (Option Violation) (List Line) := do
  let places ← (places scopes a.targets).mapError some
  match a.operator.kind with
  | .compound op => do
    checkCount? places.length a.values
    let values ← Checked.demand (spread? places.length a.values)
    (compoundLines scopes op a.operator.lexeme (places.zip values)).mapError some
  | _ => a.assignLines? scopes places

/-- What follows a count of values that is accepted has a value for every target. -/
theorem checkCount?_bind {β : Type} {targets : Nat} {values : List Expr} (hvalues : values ≠ [])
    {f f' : Checked (Option Violation) β}
    (h : values.length = 1 ∨ values.length = targets → f = f') :
    (checkCount? targets values >>= fun _ => f) =
      ((checkCount targets values).mapError some >>= fun _ => f') := by
  rw [checkCount?]
  match values with
  | [value] =>
    rw [h (.inl rfl)]
    rfl
  | first :: second :: others =>
    rw [checkCount]
    by_cases hcount : (first :: second :: others).length = targets
    · rw [h (.inr hcount), if_pos hcount, if_pos (by simp [hcount])]
      rfl
    · rw [if_neg hcount, if_neg (by simpa using hcount)]
      rfl

/-- Whether an assignment swaps two places is found without a crash. There are as many places as
targets. -/
theorem swapped?_eq {targets values : List Expr} {places : List Typed}
    (hplaces : places.length = targets.length) :
    swapped? targets values places = (swap? targets values places).mapError some := by
  by_cases hshape : targets.length = 2 ∧ values.length = 2
  · obtain ⟨htargets, hvalues⟩ := hshape
    rw [htargets] at hplaces
    obtain ⟨a, b, rfl⟩ := List.length_eq_two.1 htargets
    obtain ⟨c, d, rfl⟩ := List.length_eq_two.1 hvalues
    obtain ⟨first, second, rfl⟩ := List.length_eq_two.1 hplaces
    rw [swapped?, swap?, List.mapM_cons, List.mapM_cons, List.mapM_cons, List.mapM_cons]
    cases a.name? <;> cases b.name? <;> cases c.name? <;> cases d.name? <;> try rfl
    rename_i x y x' y'
    change (if (decide (x = y) || decide (x ≠ y') || decide (y ≠ x')) = true then pure none
      else if first.type = second.type then _ else _) = _
    by_cases hswap : (x ≠ y ∧ x = y') ∧ y = x'
    · obtain ⟨⟨hne, rfl⟩, rfl⟩ := hswap
      by_cases htype : first.type = second.type <;> simp [hne, htype]
    · rw [if_pos (by simpa [Decidable.or_iff_not_not_and_not] using hswap)]
      dsimp only
      rw [if_neg (by simpa using hswap)]
      rfl
  · have hnone : swap? targets values places = pure none := by
      unfold swap?
      split
      · simp at hshape
      · rfl
    rw [hnone, swapped?]
    split
    · rename_i left right hleft hright
      rw [if_pos]
      · rfl
      · rw [← length_of_mapM hleft, ← length_of_mapM hright] at hshape
        simpa [Decidable.or_iff_not_not_and_not] using hshape
    · rfl

/-- The lines of an assignment are planned without a crash, for it has a value and as many places as
targets. -/
theorem assignLines?_eq {places : List Typed} (hplaces : places.length = a.targets.length)
    (hvalues : a.values ≠ []) :
    a.assignLines? scopes places = (a.assignLines scopes places).mapError some := by
  rw [assignLines?, assignLines, swapped?_eq hplaces, Checked.mapError_bind]
  congr 1
  funext swapped
  cases swapped with
  | some line => rfl
  | none =>
    simp only [Checked.mapError_bind]
    congr 1
    funext unpacked
    obtain ⟨first, others, hcons⟩ := List.exists_cons_of_ne_nil hvalues
    cases unpacked with
    | some unpacked =>
      obtain ⟨call, members⟩ := unpacked
      simp [hcons]
    | none =>
      simp only [Checked.mapError_bind]
      refine checkCount?_bind hvalues fun hcount => ?_
      rw [spread?_eq hcount, Checked.demand_some_bind, pairs]

/-- The values of an assignment are found where they are looked for. The counts were checked before,
and what is unpacked has a tuple for its type. -/
theorem lines?_eq (hvalues : a.values ≠ []) : a.lines? scopes = (a.lines scopes).mapError some := by
  rw [lines?, lines, Checked.mapError_bind]
  refine Checked.bind_congr_of_ok fun places hplaces => ?_
  rw [Checked.outcome_mapError_eq_ok_iff] at hplaces
  cases a.operator.kind with
  | compound op =>
    simp only [Checked.mapError_bind]
    refine checkCount?_bind hvalues fun hcount => ?_
    rw [spread?_eq hcount, Checked.demand_some_bind, pairs]
  | _ => exact assignLines?_eq (writable_of_places hplaces).1 hvalues

end Assignment

end Sprout
