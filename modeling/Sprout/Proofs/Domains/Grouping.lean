import Sprout.Proofs.Domains.Slices
import Sprout.Proofs.Statements.Gathering

namespace Sprout

open Token

namespace Statement

/-- A statement as its kind and the list of its tokens, which has to be looked into. -/
def raw (s : Statement) : Kind × List Token :=
  (s.kind, s.tokens)

/-- A statement out of a kind and a list of tokens, whose first one is found by its index. There is
no statement of no tokens. -/
def ofRaw? (kind : Kind) (tokens : List Token) : Option Statement := do
  some ⟨kind, ← tokens[0]?, ← slice? 1 tokens.length tokens⟩

/-- A statement is gathered from its own tokens, since it has a first one. -/
theorem ofRaw?_tokens (s : Statement) : ofRaw? s.kind s.tokens = some s := by
  have hrest : slice? 1 s.tokens.length s.tokens = some s.rest := slice?_tail s.lead s.rest
  rw [ofRaw?, hrest]
  rfl

/-- A list split in two at an index, which must not lie behind its end. -/
def splitOff? {α : Type} (n : Nat) (as : List α) : Option (List α × List α) :=
  if n ≤ as.length then some (as.take n, as.drop n) else none

/-- The parts of a list between the given indexes, split off from the last one on. -/
def parts? {α : Type} (as : List α) : List Nat → Option (List (List α))
  | [] => some [as]
  | n :: earlier => do
    let (front, back) ← splitOff? n as
    let parts ← parts? front earlier
    some (parts ++ [back])

/-- The clauses of a `for` header. The first one holds its keyword and something else. -/
def clauses (header : Token) :
    List (Kind × List Token) → Except (Defect Malformed) (List (Kind × List Token))
  | [] => .ok []
  | (kind, part) :: others =>
    if part.length < (if kind = .header then 2 else 1) then .error (header.defect .emptyForClause)
    else do
      let made ← clauses header others
      .ok ((kind, part) :: made)

/-- The statements of a `for` header that is split at the given indexes. -/
def forHeader? (tokens : List Token) (splits : List Nat) :
    Except (Option (Defect Malformed)) (List (Kind × List Token)) := do
  let header ← demand tokens[0]?
  if splits.isEmpty then .error (some (header.defect .missingForSeparator))
  else if 2 < splits.length then .error (some (header.defect .extraForClause))
  else do
    let parts ← demand (parts? tokens splits.reverse)
    (clauses header ([.header, .bound, .step].zip parts)).mapError some

end Statement

/-- The state of the gathering: the statements made so far, the tokens of the current one, the
bracket depth, and where semicolons split a `for` header. -/
structure Gathering where
  made : List (Statement.Kind × List Token) := []
  current : List Token := []
  depth : Nat := 0
  splits : List Nat := []

namespace Gathering

/-- Ends the current statement, if there is one. -/
def flush? (g : Gathering) : Except (Option (Defect Malformed)) Gathering :=
  if g.current.isEmpty then .ok { made := g.made }
  else do
    let lead ← demand g.current[0]?
    if lead.kind = .keyword .forWord then do
      let clauses ← Statement.forHeader? g.current g.splits
      .ok { made := g.made ++ clauses }
    else do
      let rest ← demand (slice? 1 g.current.length g.current)
      .ok { made := g.made ++ [(Statement.classify lead rest, g.current)] }

/-- Whether `next`, outside brackets, starts a new statement. -/
def endsBefore (g : Gathering) (next : Token) : Bool :=
  match g.current.getLast? with
  | none => false
  | some last =>
    if next.kind.startsStatement then
      !(g.current.length = 1 &&
        ((last.kind = .keyword .elseWord && next.kind = .keyword .ifWord) ||
          (last.kind = .keyword .forWord && next.kind = .keyword .var)))
    else next.position.line ≠ last.position.line && !last.kind.continues

/-- Whether the current statement is a `for` header. -/
def inForHeader (g : Gathering) : Bool :=
  g.current.head?.any (·.kind = .keyword .forWord)

/-- Adds a token to the current statement. -/
def append (g : Gathering) (t : Token) : Gathering :=
  { g with current := g.current ++ [t], depth := t.kind.depthAfter g.depth }

/-- Adds a brace, which is a statement of its own. -/
def brace? (g : Gathering) (kind : Statement.Kind) (t : Token) :
    Except (Option (Defect Malformed)) Gathering := do
  let g ← g.flush?
  .ok { g with made := g.made ++ [(kind, [t])] }

/-- Takes one token into account. -/
def push? (g : Gathering) (t : Token) : Except (Option (Defect Malformed)) Gathering :=
  match t.kind with
  | .eof | .comment => .ok g
  | .unknown => .error (some (t.defect (.ofUnknown t.lexeme)))
  | .openBrace => g.brace? .opening t
  | .closeBrace => g.brace? .closing t
  | _ =>
    if t.kind = .semicolon && g.depth = 0 then
      if g.inForHeader then .ok { g with splits := g.splits ++ [g.current.length] } else g.flush?
    else if g.depth = 0 && g.endsBefore t then do
      let g ← g.flush?
      .ok (g.append t)
    else .ok (g.append t)

end Gathering

/-- The statements that a list of tokens makes up, as lists of tokens. -/
def Statement.group? (ts : List Token) :
    Except (Option (Defect Malformed)) (List (Kind × List Token)) := do
  let g ← ts.foldlM Gathering.push? {}
  let g ← g.flush?
  .ok g.made

namespace Grouping

/-- The state of a grouping as that of a gathering. -/
def gathered (g : Grouping) : Gathering :=
  ⟨g.made.toList.map Statement.raw, g.current.reverse, g.depth, g.cuts.reverse⟩

/-- The cuts of a `for` header come one after another, behind its keyword and inside it. -/
structure WellCut (g : Grouping) : Prop where
  inside : ∀ n ∈ g.cuts, 1 ≤ n ∧ n ≤ g.current.length
  ordered : g.cuts.Pairwise (· ≥ ·)

variable {g g' : Grouping} {t : Token}

/-- Where no semicolon has been noted there is nothing to split at. -/
theorem WellCut.of_nil (h : g.cuts = []) : g.WellCut :=
  ⟨by simp [h], by simp [h]⟩

/-- Tokens are added behind all semicolons that have been noted. -/
theorem WellCut.append (h : g.WellCut) (t : Token) : (g.append t).WellCut :=
  ⟨fun n hn => ⟨(h.inside n hn).1, Nat.le_succ_of_le (h.inside n hn).2⟩, h.ordered⟩

/-- Every token leaves the semicolons that are noted inside the tokens that have been gathered. Once
a statement has ended, no semicolon is noted any more. -/
theorem WellCut.step (h : g.WellCut) (hstep : Step g t g') : g'.WellCut := by
  cases hstep with
  | skip => exact h
  | brace _ hflush | finish _ _ _ hflush =>
    obtain ⟨new, rfl, -⟩ := exists_made_of_flush hflush
    exact .of_nil rfl
  | start _ _ _ _ hflush =>
    obtain ⟨new, rfl, -⟩ := exists_made_of_flush hflush
    exact (WellCut.of_nil rfl).append t
  | cut _ _ hheader =>
    have hpos : 1 ≤ g.current.length := by
      cases hcurrent : g.current with
      | nil => simp [inForHeader, hcurrent] at hheader
      | cons => simp
    refine ⟨List.forall_mem_cons.2 ⟨⟨hpos, Nat.le_refl _⟩, h.inside⟩, ?_⟩
    exact List.pairwise_cons.2 ⟨fun n hn => (h.inside n hn).2, h.ordered⟩
  | stay => exact h.append t

/-- The clauses of a `for` header are split off where they are cut. The cuts are in order and behind
the word of the header, so that each split lies inside what the one before has left. -/
theorem forHeader?_eq {header : Token} {rest : List Token} {cuts : List Nat}
    (hinside : ∀ n ∈ cuts, 1 ≤ n ∧ n ≤ rest.length + 1) (hordered : cuts.Pairwise (· ≤ ·)) :
    Statement.forHeader? (header :: rest) cuts =
      ((Statement.forHeader header rest cuts).map (List.map Statement.raw)).mapError some := by
  unfold Statement.forHeader? Statement.forHeader
  rw [List.getElem?_cons_zero, demand_some_bind]
  match cuts with
  | [] => rfl
  | [first] =>
    obtain ⟨k, rfl⟩ := Nat.exists_eq_add_one.2 (hinside first (by simp)).1
    have hk := (hinside _ (List.mem_singleton_self _)).2
    have hparts : Statement.parts? (header :: rest) [k + 1] =
        some [header :: rest.take k, rest.drop k] := by
      simp [Statement.parts?, Statement.splitOff?, show k ≤ rest.length by omega]
    simp only [List.reverse_singleton, hparts, Nat.add_sub_cancel]
    cases rest.take k with
    | nil => rfl
    | cons => cases rest.drop k <;> rfl
  | [first, second] =>
    rw [List.forall_mem_cons, List.forall_mem_singleton] at hinside
    obtain ⟨k, rfl⟩ := Nat.exists_eq_add_one.2 hinside.1.1
    obtain ⟨m, rfl⟩ := Nat.exists_eq_add_one.2 hinside.2.1
    have hkm : k + 1 ≤ m + 1 := by simpa using hordered
    have hparts : Statement.parts? (header :: rest) [m + 1, k + 1] =
        some [header :: rest.take k, (rest.drop k).take (m - k), rest.drop m] := by
      simp only [Statement.parts?, Statement.splitOff?, List.length_cons, List.take_succ_cons,
        List.drop_succ_cons, List.length_take, if_pos hinside.2.2, Option.bind_eq_bind,
        Option.bind_some]
      rw [if_pos (by omega)]
      simp [List.take_take, List.drop_take, show min k m = k by omega]
    simp only [List.reverse_cons, List.reverse_nil, List.nil_append, List.cons_append, hparts,
      Nat.add_sub_cancel, show m + 1 - (k + 1) = m - k by omega]
    cases rest.take k with
    | nil => rfl
    | cons =>
      cases (rest.drop k).take (m - k) with
      | nil => rfl
      | cons => cases rest.drop m <;> rfl
  | _ :: _ :: _ :: _ =>
    simp only [List.isEmpty_cons, Bool.false_eq_true, if_false, List.length_cons]
    rw [if_pos (by omega)]
    rfl

/-- The statement gathered so far is split where semicolons were noted, none of which lies behind
its end. -/
theorem flush?_eq (h : g.WellCut) :
    g.gathered.flush? = (g.flush.map gathered).mapError some := by
  unfold Gathering.flush? flush
  cases hcurrent : g.current.reverse with
  | nil =>
    simp only [gathered, hcurrent, List.isEmpty_nil, if_true]
    rfl
  | cons lead rest =>
    simp only [gathered, hcurrent, List.isEmpty_cons, Bool.false_eq_true, if_false,
      List.getElem?_cons_zero, demand_some_bind, slice?_tail]
    have hlength : rest.length + 1 = g.current.length := by
      rw [← List.length_cons (a := lead), ← hcurrent, List.length_reverse]
    split
    · rw [forHeader?_eq (fun n hn => hlength ▸ h.inside n (List.mem_reverse.1 hn))
        (List.pairwise_reverse.2 h.ordered)]
      cases Statement.forHeader lead rest g.cuts.reverse with
      | error e => rfl
      | ok clauses => simp [Except.map, gathered, bind, Except.bind]
    · simp [Except.map, gathered, Statement.raw, Statement.tokens]

/-- A brace ends the statement gathered so far and is a statement of its own. -/
theorem brace?_eq (h : g.WellCut) (kind : Statement.Kind) :
    g.gathered.brace? kind t = ((g.brace kind t).map gathered).mapError some := by
  rw [Gathering.brace?, brace, flush?_eq h]
  cases g.flush with
  | error e => rfl
  | ok flushed => simp [Except.map, gathered, Statement.raw, Statement.tokens]

/-- Whether a token starts another statement is decided alike for lists and for statements. -/
theorem endsBefore_gathered : g.gathered.endsBefore t = g.endsBefore t := by
  unfold Gathering.endsBefore endsBefore
  cases hcurrent : g.current with
  | nil => simp [gathered, hcurrent]
  | cons last earlier => cases earlier <;> simp [gathered, hcurrent]

/-- Whether the tokens gathered so far belong to a `for` header is decided alike for lists and for
statements. -/
theorem inForHeader_gathered : g.gathered.inForHeader = g.inForHeader := by
  rw [Gathering.inForHeader, inForHeader, gathered, List.head?_reverse]

/-- A token is gathered alike in a list and in a statement. -/
theorem append_gathered : g.gathered.append t = (g.append t).gathered := by
  simp [Gathering.append, append, gathered]

/-- Taking a token into account crashes nowhere: the cuts that are noted lie inside the current
statement, and only a statement with tokens is finished. -/
theorem push?_eq (h : g.WellCut) : g.gathered.push? t = ((g.push t).map gathered).mapError some := by
  have hcut : ({ g.gathered with splits := g.gathered.splits ++ [g.gathered.current.length] } :
      Gathering) = gathered { g with cuts := g.current.length :: g.cuts } := by
    simp [gathered]
  have hother : (if t.kind = .semicolon && g.gathered.depth = 0 then
        if g.gathered.inForHeader then
          .ok { g.gathered with splits := g.gathered.splits ++ [g.gathered.current.length] }
        else g.gathered.flush?
      else if g.gathered.depth = 0 && g.gathered.endsBefore t then do
        let flushed ← g.gathered.flush?
        .ok (flushed.append t)
      else .ok (g.gathered.append t)) =
      ((if t.kind = .semicolon && g.depth = 0 then
        if g.inForHeader then .ok { g with cuts := g.current.length :: g.cuts } else g.flush
      else if g.depth = 0 && g.endsBefore t then do
        let flushed ← g.flush
        .ok (flushed.append t)
      else .ok (g.append t) : Except (Defect Malformed) Grouping).map gathered).mapError some := by
    have hdepth : g.gathered.depth = g.depth := rfl
    rw [hcut, inForHeader_gathered, endsBefore_gathered, append_gathered, flush?_eq h, hdepth]
    split
    · split <;> rfl
    · split
      · cases g.flush with
        | error e => rfl
        | ok flushed => exact congrArg Except.ok append_gathered
      · rfl
  unfold Gathering.push? push
  cases hkind : t.kind <;> rw [hkind] at hother
  all_goals first
    | rfl
    | exact brace?_eq h _
    | exact hother

/-- Tokens are gathered in lists, one after the other, as they are gathered in statements. -/
theorem foldlM_push? (h : g.WellCut) (ts : List Token) :
    ts.foldlM Gathering.push? g.gathered = ((ts.foldlM push g).map gathered).mapError some := by
  induction ts generalizing g with
  | nil => rfl
  | cons t ts ih =>
    rw [List.foldlM_cons, List.foldlM_cons, push?_eq h]
    cases hpush : g.push t with
    | error e => rfl
    | ok g' => exact ih (h.step (.of_push hpush))

/-- However many tokens are gathered, the semicolons that are noted stay among them. -/
theorem WellCut.foldlM {ts : List Token} (h : g.WellCut) (hpush : ts.foldlM Grouping.push g = .ok g') :
    g'.WellCut :=
  run_induction h (fun _ _ _ _ h hstep => h.step hstep) hpush

end Grouping

/-- The statements of a list of tokens are gathered without a crash: none of them is empty, and no
`for` header is split behind its end. They are the statements that the tokens are cut into. -/
theorem Statement.group?_eq (ts : List Token) :
    group? ts = ((group ts).map (List.map raw)).mapError some := by
  have hempty : Grouping.WellCut {} := .of_nil rfl
  have hfold := Grouping.foldlM_push? hempty ts
  rw [group?, group, show ({} : Gathering) = Grouping.gathered {} from rfl, hfold]
  cases hgroup : ts.foldlM Grouping.push {} with
  | error e => rfl
  | ok g =>
    simp only [Except.map, mapError_ok, ok_bind, Grouping.flush?_eq (hempty.foldlM hgroup)]
    cases g.flush <;> rfl

end Sprout
