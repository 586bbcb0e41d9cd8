import Sprout.Proofs.Domains.Counting

namespace Sprout

namespace Token

variable {α : Type}

/-- The part of a list from one index up to another; the second must not be smaller than the first,
nor lie behind the end. -/
def slice? (start stop : Nat) (as : List α) : Option (List α) :=
  if start ≤ stop ∧ stop ≤ as.length then some ((as.take stop).drop start) else none

/-- The index of the first token outside any brackets whose kind satisfies `p`. -/
def findTop (p : Kind → Bool) (depth : Nat) : List Token → Option Nat
  | [] => none
  | t :: rest =>
    if !t.kind.isOpening && !t.kind.isClosing && depth = 0 && p t.kind then some 0
    else (findTop p (t.kind.depthAfter depth) rest).map (· + 1)

variable {p : Kind → Bool} {depth : Nat} {run before after : List Token} {t mid : Token}

/-- What stands in front of an index that was found can be sliced off. -/
theorem slice?_to (front back : List α) : slice? 0 front.length (front ++ back) = some front := by
  simp [slice?]

/-- What stands behind an index that was found can be sliced off. -/
theorem slice?_behind (front : List α) (a : α) (back : List α) :
    slice? (front.length + 1) (front ++ a :: back).length (front ++ a :: back) = some back := by
  have hdrop : (front ++ a :: back).drop (front.length + 1) = back := by
    rw [← List.drop_drop, List.drop_left, List.drop_succ_cons, List.drop_zero]
  rw [slice?, if_pos ⟨by simp, Nat.le_refl _⟩, List.take_length, hdrop]

/-- The member at an index that was found is there. -/
theorem getElem?_at (front : List α) (a : α) (back : List α) :
    (front ++ a :: back)[front.length]? = some a := by
  simp

@[simp] theorem slice?_tail (a : α) (as : List α) :
    slice? 1 (a :: as).length (a :: as) = some as := by
  simp [slice?]

@[simp] theorem slice?_all (as : List α) : slice? 0 as.length as = some as := by
  simp [slice?]

/-- The index of a token is the number of tokens before it. -/
theorem findTop_eq (p : Kind → Bool) (depth : Nat) (run : List Token) :
    findTop p depth run = (splitTop p depth run).map fun (before, _, _) => before.length := by
  induction run generalizing depth with
  | nil => rfl
  | cons t rest ih =>
    rw [findTop, splitTop]
    split
    · rfl
    · rw [ih, Option.map_map, Option.map_map]
      rfl

/-- A token is found where a run is cut. -/
theorem findTop_cases (p : Kind → Bool) (run : List Token) :
    (findTop p 0 run = none ∧ splitTop p 0 run = none) ∨
      ∃ before mid after, findTop p 0 run = some before.length ∧
        splitTop p 0 run = some (before, mid, after) ∧ run = before ++ mid :: after := by
  rw [findTop_eq]
  cases hsplit : splitTop p 0 run with
  | none => exact .inl ⟨rfl, rfl⟩
  | some parts =>
    obtain ⟨before, mid, after⟩ := parts
    exact .inr ⟨before, mid, after, rfl, rfl, (eq_append_of_splitTop hsplit).1⟩

/-- The pieces of a run between its top-level commas, found one after another by their indexes. -/
def splitCommas? (run : List Token) : Option (List (List Token)) :=
  match run with
  | [] => some []
  | t :: rest =>
    match findTop (· = .comma) 0 (t :: rest) with
    | none => some [t :: rest]
    | some i =>
      match slice? 0 i (t :: rest), _ : slice? (i + 1) (t :: rest).length (t :: rest) with
      | some piece, some others => (splitCommas? others).map (piece :: ·)
      | _, _ => none
termination_by run.length
decreasing_by
  rename_i hslice
  rw [slice?] at hslice
  split at hslice
  · cases hslice
    simp only [List.length_drop, List.length_take, List.length_cons]
    omega
  · cases hslice

/-- The first piece of a run ends at its first comma, if it has one. -/
theorem pieces_eq (depth : Nat) (run : List Token) :
    pieces depth run = match splitTop (· = .comma) depth run with
      | none => if run = [] then [] else [run]
      | some (before, _, after) => before :: pieces 0 after := by
  induction run generalizing depth with
  | nil => rfl
  | cons t rest ih =>
    have hcomma : (!t.kind.isOpening && !t.kind.isClosing && decide (depth = 0) &&
        decide (t.kind = .comma)) = (decide (t.kind = .comma) && decide (depth = 0)) := by
      by_cases hkind : t.kind = .comma
      · simp [hkind, Kind.isOpening, Kind.isClosing]
      · simp [hkind]
    rw [pieces, splitTop, hcomma]
    split
    · rfl
    · rw [ih]
      cases splitTop (· = .comma) (t.kind.depthAfter depth) rest with
      | none => cases rest <;> rfl
      | some parts => rfl

/-- A run is cut at its commas without a crash, each piece from behind one comma up to the next. -/
theorem splitCommas?_eq (run : List Token) : splitCommas? run = some (splitCommas run) := by
  induction hlength : run.length using Nat.strongRecOn generalizing run with
  | ind length ih =>
    subst hlength
    cases run with
    | nil =>
      rw [splitCommas?]
      rfl
    | cons t rest =>
      rw [splitCommas?, splitCommas, pieces_eq]
      rcases findTop_cases (· = .comma) (t :: rest) with
        ⟨hfind, hsplit⟩ | ⟨before, mid, after, hfind, hsplit, hrun⟩
      · simp [hfind, hsplit]
      · rw [hfind, hsplit]
        dsimp only
        have hbehind : slice? (before.length + 1) (t :: rest).length (t :: rest) = some after := by
          rw [hrun, slice?_behind]
        have hto : slice? 0 before.length (t :: rest) = some before := by
          rw [hrun, slice?_to]
        split
        · rename_i piece others hpiece hothers
          rw [hto] at hpiece
          rw [hbehind] at hothers
          cases hpiece
          cases hothers
          rw [ih after.length (by rw [hrun]; simp; omega) after rfl]
          rfl
        · rename_i hnone
          exact absurd hbehind (hnone before after hto)

/-- A token that is passed over moves the index of what is looked for. -/
theorem findTop_cons (hopening : t.kind.isOpening = false) (hclosing : t.kind.isClosing = false)
    (hp : p t.kind = false) : findTop p 0 (t :: run) = (findTop p 0 run).map (· + 1) := by
  rw [findTop, if_neg (by simp [hp]), Kind.depthAfter, if_neg (by simp [hopening]),
    if_neg (by simp [hclosing])]

end Token

open Token

namespace Statement

/-- The pieces behind the first equal sign of a run, by its index. -/
def initializers? (run : List Token) : Option (List (List Token)) :=
  match findTop (· = .equal) 0 run with
  | none => some []
  | some equal => do splitCommas? (← slice? (equal + 1) run.length run)

/-- The runs of a statement that hold its expressions, sliced out of its tokens. -/
def runs? (s : Statement) : Option (List (List Token)) :=
  match s.kind with
  | .operation | .bound | .step => splitCommas? s.tokens
  | .result => do splitCommas? (← slice? 1 s.tokens.length s.tokens)
  | .alternative =>
    if 2 < s.tokens.length then do splitCommas? (← slice? 2 s.tokens.length s.tokens)
    else some []
  | .header => do
    let lead ← s.tokens[0]?
    if lead.kind = .keyword .forWord then initializers? s.tokens
    else splitCommas? (← slice? 1 s.tokens.length s.tokens)
  | .initialization => initializers? s.tokens
  | .assignment =>
    match findTop Kind.isAssignment 0 s.tokens with
    | none => some []
    | some i => do
      let before ← splitCommas? (← slice? 0 i s.tokens)
      let after ← splitCommas? (← slice? (i + 1) s.tokens.length s.tokens)
      some (before ++ after)
  | _ => some []

/-- The initializers behind the sign of a statement are sliced out of its tokens without a crash. -/
theorem initializers?_eq (run : List Token) : initializers? run = some (initializers run) := by
  rw [initializers?, initializers]
  rcases findTop_cases (· = .equal) run with
    ⟨hfind, hsplit⟩ | ⟨before, mid, after, hfind, hsplit, rfl⟩
  · rw [hfind, hsplit]
  · simp only [hfind, hsplit, slice?_behind, splitCommas?_eq, Option.bind_eq_bind, Option.bind_some]

/-- The expressions of a statement are sliced out inside it, whatever its kind: each index is that
of a token found in the run that is cut. -/
theorem runs?_eq (s : Statement) : s.runs? = some s.runs := by
  have hrest : slice? 1 s.tokens.length s.tokens = some s.rest := slice?_tail s.lead s.rest
  rw [runs?, runs]
  cases s.kind with
  | main | declaration | jump | opening | closing => rfl
  | operation | bound | step => exact splitCommas?_eq _
  | result => simp only [hrest, splitCommas?_eq, Option.bind_eq_bind, Option.bind_some]
  | initialization => exact initializers?_eq _
  | alternative =>
    dsimp only
    split
    · have hslice : slice? 2 s.tokens.length s.tokens = some (s.rest.drop 1) := by
        rw [slice?, if_pos ⟨by omega, Nat.le_refl _⟩, List.take_length]
        rfl
      simp only [hslice, splitCommas?_eq, Option.bind_eq_bind, Option.bind_some]
    · rename_i hshort
      have hdrop : s.rest.drop 1 = [] := by
        simp only [tokens, List.length_cons] at hshort
        rw [List.drop_eq_nil_iff]
        omega
      rw [hdrop]
      rfl
  | header =>
    have hlead : s.tokens[0]? = some s.lead := rfl
    simp only [hlead, hrest, splitCommas?_eq, initializers?_eq, Option.bind_eq_bind, Option.bind_some]
    split <;> rfl
  | assignment =>
    dsimp only
    rcases findTop_cases Kind.isAssignment s.tokens with
      ⟨hfind, hsplit⟩ | ⟨before, mid, after, hfind, hsplit, hrun⟩
    · rw [hfind, hsplit]
    · have hto := slice?_to before (mid :: after)
      have hbehind := slice?_behind before mid after
      rw [← hrun] at hto hbehind
      simp only [hfind, hsplit, hto, hbehind, splitCommas?_eq, Option.bind_eq_bind, Option.bind_some]

end Statement

/-- The expressions of a run beside a token, which must not be empty. -/
def parseBeside? (part : Part) (beside : Token) (run : List Token) :
    Except (Option (Defect Malformed)) (List Expr) := do
  let run ← (require part beside run).mapError some
  Expr.parseList? run

/-- Expressions beside a sign are read without a crash from tokens whose places fit 32 bits, or are
missing beside it. -/
theorem parseBeside?_eq {run : List Token} (hrun : AllIn Position.Fits run) (part : Part)
    (beside : Token) :
    parseBeside? part beside run = (require part beside run >>= Expr.parseList).mapError some := by
  rw [parseBeside?, mapError_bind]
  refine bind_congr_of_ok fun run' hrequire => ?_
  rw [require_eq_ok (mapError_eq_ok_iff.1 hrequire), Expr.parseList?_eq hrun]

namespace Declaration

/-- The token at an index that was found in a run, and the slice behind it. -/
def behind? (found : Option Nat) (run : List Token) : Option (Option (Token × List Token)) :=
  match found with
  | none => some none
  | some i => do some (some (← run[i]?, ← slice? (i + 1) run.length run))

/-- The type behind a colon. -/
def readType? : Option (Token × List Token) → Except (Option (Defect Malformed)) (Option Expr)
  | none => .ok none
  | some (colon, run) => do
    let run ← (require .type colon run).mapError some
    let type ← Expr.parseType? run
    .ok (some type)

/-- The initializers behind an equal sign. -/
def readInitializers? : Option (Token × List Token) → Except (Option (Defect Malformed)) (List Expr)
  | none => .ok []
  | some (equal, run) => parseBeside? .initializer equal run

/-- Reads a declaration by slicing its tokens. -/
def read? (s : Statement) : Except (Option Failure) Declaration := do
  let keyword ← demand s.tokens[0]?
  let equal := findTop (· = .equal) 0 s.tokens
  let head ← demand (slice? 1 (equal.getD s.tokens.length) s.tokens)
  let colon := findTop (· = .colon) 0 head
  let named ← demand (slice? 0 (colon.getD head.length) head)
  let pieces ← demand (splitCommas? named)
  let names ← (readNames keyword pieces).mapError (some ∘ .violation)
  if names.isEmpty then
    ((Fault.nameExpectedAfter keyword.lexeme).refuse keyword.position).mapError some
  else
    let typed ← demand (behind? colon head)
    let type ← (readType? typed).mapError (Option.map .malformed)
    let initial ← demand (behind? equal s.tokens)
    let initializers ← (readInitializers? initial).mapError (Option.map .malformed)
    let name ← demand names[0]?
    let others ← demand (slice? 1 names.length names)
    return { keyword, name, others, type, initializers }

/-- Slicing a run at the index of a token cuts it at the token. -/
theorem slices_cut (kind : Token.Kind) (run : List Token) :
    slice? 0 ((findTop (· = kind) 0 run).getD run.length) run = some (cut kind run).1 ∧
      behind? (findTop (· = kind) 0 run) run = some (cut kind run).2 := by
  rcases findTop_cases (· = kind) run with
    ⟨hfind, hsplit⟩ | ⟨before, mid, after, hfind, hsplit, rfl⟩
  · simp only [cut, hfind, hsplit, Option.getD_none, slice?_all, behind?, and_self]
  · simp only [cut, hfind, hsplit, Option.getD_some, slice?_to, behind?, slice?_behind, getElem?_at,
      Option.bind_eq_bind, Option.bind_some, and_self]

/-- The same behind a first token that is passed over. -/
theorem slices_cut_cons {kind : Token.Kind} {lead : Token} (rest : List Token)
    (hfind : findTop (· = kind) 0 (lead :: rest) = (findTop (· = kind) 0 rest).map (· + 1)) :
    slice? 1 ((findTop (· = kind) 0 (lead :: rest)).getD (lead :: rest).length) (lead :: rest) =
        some (cut kind rest).1 ∧
      behind? (findTop (· = kind) 0 (lead :: rest)) (lead :: rest) = some (cut kind rest).2 := by
  have hslice : ∀ start stop, slice? (start + 1) (stop + 1) (lead :: rest) = slice? start stop rest :=
    fun start stop => by simp [slice?]
  obtain ⟨hto, hbehind⟩ := slices_cut kind rest
  rw [hfind]
  cases hrest : findTop (· = kind) 0 rest with
  | none =>
    rw [hrest] at hto hbehind
    exact ⟨(hslice 0 _).trans hto, hbehind⟩
  | some i =>
    rw [hrest] at hto hbehind
    refine ⟨(hslice 0 i).trans hto, ?_⟩
    simp only [behind?, Option.map_some, List.getElem?_cons_succ, List.length_cons, hslice] at hbehind ⊢
    exact hbehind

/-- The declared type is read without a crash from tokens whose places fit 32 bits. -/
theorem readType?_eq {part : Option (Token × List Token)}
    (hpart : ∀ found ∈ part, AllIn Position.Fits found.2) :
    readType? part = (readType part).mapError some := by
  cases part with
  | none => rfl
  | some part =>
    obtain ⟨colon, run⟩ := part
    rw [readType?, readType, mapError_bind]
    refine bind_congr_of_ok fun run' hrequire => ?_
    rw [require_eq_ok (mapError_eq_ok_iff.1 hrequire), mapError_bind,
      Expr.parseType?_eq (hpart _ rfl)]
    rfl

/-- The initial values are read without a crash from tokens whose places fit 32 bits. -/
theorem readInitializers?_eq {part : Option (Token × List Token)}
    (hpart : ∀ found ∈ part, AllIn Position.Fits found.2) :
    readInitializers? part = (readInitializers part).mapError some := by
  cases part with
  | none => rfl
  | some part => exact parseBeside?_eq (hpart _ rfl) .initializer part.1

/-- A declaration is read inside its tokens, because it starts with a keyword. Where its tokens stand
and end in 32 bits, what is wrong with them is reported. -/
theorem read?_eq {s : Statement} {word : Keyword} (hlead : s.lead.kind = .keyword word)
    (hs : s.StandsIn Position.Fits) : read? s = (read s).mapError some := by
  have hfind : findTop (· = .equal) 0 (s.lead :: s.rest) =
      (findTop (· = .equal) 0 s.rest).map (· + 1) :=
    findTop_cons (by rw [hlead]; rfl) (by rw [hlead]; rfl) (by rw [hlead]; rfl)
  obtain ⟨hhead, hinitial⟩ := slices_cut_cons s.rest hfind
  obtain ⟨hnamed, htyped⟩ := slices_cut .colon (cut .equal s.rest).1
  obtain ⟨hheadFits, hinitialFits⟩ := allIn_cut .equal hs.rest
  have htype := readType?_eq fun found hfound => ((allIn_cut .colon hheadFits).2 found hfound).2
  have hinitializers := readInitializers?_eq fun found hfound => (hinitialFits found hfound).2
  have htokens : s.tokens = s.lead :: s.rest := rfl
  have hkeyword : s.tokens[0]? = some s.lead := rfl
  rw [← htokens] at hhead hinitial
  have hothers : ∀ (name : Token) (others : List Token),
      slice? 1 (name :: others).length (name :: others) = some others := slice?_tail
  rw [read?, read]
  simp only [hkeyword, demand_some_bind, hhead, hnamed, splitCommas?_eq, htyped, hinitial, htype,
    hinitializers]
  cases readNames s.lead (splitCommas (cut .colon (cut .equal s.rest).1).1) with
  | error e => rfl
  | ok names =>
    cases names with
    | nil => rfl
    | cons name others =>
      simp only [mapError_ok, ok_bind, List.isEmpty_cons, Bool.false_eq_true, if_false, hothers,
        List.getElem?_cons_zero, demand_some_bind]
      cases readType (cut .colon (cut .equal s.rest).1).2 with
      | error e => rfl
      | ok type => cases readInitializers (cut .equal s.rest).2 <;> rfl

end Declaration

namespace Assignment

/-- Reads an assignment by slicing its tokens. -/
def read? (s : Statement) : Except (Option Failure) Assignment :=
  match findTop Kind.isAssignment 0 s.tokens with
  | none => .error (some (.violation (.unplaced .assignmentExpected)))
  | some i => do
    let operator ← demand s.tokens[i]?
    let before ← demand (slice? 0 i s.tokens)
    let targets ← (parseBeside? .target operator before).mapError (Option.map .malformed)
    let after ← demand (slice? (i + 1) s.tokens.length s.tokens)
    let values ← (parseBeside? .value operator after).mapError (Option.map .malformed)
    return { operator, targets, values }

/-- An assignment is read inside its tokens. Where they stand and end in 32 bits, what is wrong with
them is reported. -/
theorem read?_eq {s : Statement} (hs : s.StandsIn Position.Fits) :
    read? s = (read s).mapError some := by
  rw [read?, read]
  rcases findTop_cases Kind.isAssignment s.tokens with
    ⟨hfind, hsplit⟩ | ⟨before, operator, after, hfind, hsplit, hrun⟩
  · rw [hfind, hsplit]
    rfl
  · obtain ⟨hbefore, -, hafter⟩ := hs.of_splitTop hsplit
    have hto := slice?_to before (operator :: after)
    have hbehind := slice?_behind before operator after
    have hat := getElem?_at before operator after
    rw [← hrun] at hto hbehind hat
    simp only [hfind, hsplit, hto, hbehind, hat, demand_some_bind, parseBeside?_eq hbefore,
      parseBeside?_eq hafter]
    simp only [liftM_malformed]
    cases require .target operator before with
    | error e => rfl
    | ok run =>
      simp only [ok_bind, mapError_ok]
      cases Expr.parseList run with
      | error e => rfl
      | ok targets =>
        simp only [ok_bind, mapError_ok]
        cases require .value operator after with
        | error e => rfl
        | ok run =>
          simp only [ok_bind, mapError_ok]
          cases Expr.parseList run <;> rfl

end Assignment

end Sprout
