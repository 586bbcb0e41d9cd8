import Mathlib.Data.List.Chain
import Sprout.Proofs.Statements.Runs

namespace Sprout

namespace Grouping

/-- The bracket depth behind tokens, of which the latest is in front. -/
def depthBehind : List Token → Nat
  | [] => 0
  | t :: earlier => t.kind.depthAfter (depthBehind earlier)

/-- Whether tokens, of which the latest is in front, stay in one statement. -/
def Unbroken : List Token → Prop
  | [] => True
  | t :: earlier =>
    isOrdinary t = true ∧
      (depthBehind earlier = 0 → t.kind ≠ .semicolon ∧ endsBefore { current := earlier } t = false) ∧
      Unbroken earlier

/-- The bracket depth behind statements. -/
def depthOf (statements : List Statement) : Nat :=
  depthBehind (tokensOf statements).reverse

/-- Whether statements stay together: nothing ends them. -/
def Joined (statements : List Statement) : Prop :=
  Unbroken (tokensOf statements).reverse

/-- Statements that are made at once. -/
inductive Piece : List Statement → Prop
  | brace {kind t} (h : IsBrace kind t) : Piece [⟨kind, t, []⟩]
  | plain {lead rest} (hlead : lead.kind ≠ .keyword .forWord)
      (hjoined : Joined [⟨Statement.classify lead rest, lead, rest⟩]) :
      Piece [⟨Statement.classify lead rest, lead, rest⟩]
  | loop {start bound : Statement} (hkind : start.kind = .header)
      (hlead : start.lead.kind = .keyword .forWord) (hrest : start.rest ≠ [])
      (hbound : bound.kind = .bound) (hjoined : Joined [start, bound])
      (hdepth : depthOf [start] = 0) : Piece [start, bound]
  | stepLoop {start bound step : Statement} (hkind : start.kind = .header)
      (hlead : start.lead.kind = .keyword .forWord) (hrest : start.rest ≠ [])
      (hbound : bound.kind = .bound) (hstep : step.kind = .step)
      (hjoined : Joined [start, bound, step]) (hdepth : depthOf [start] = 0)
      (hdepth' : depthOf [start, bound] = 0) : Piece [start, bound, step]

/-- No brace and no clause of a loop header is classified by its first token. -/
theorem classify_ne (lead : Token) (rest : List Token) :
    Statement.classify lead rest ≠ .opening ∧ Statement.classify lead rest ≠ .closing ∧
      Statement.classify lead rest ≠ .bound ∧ Statement.classify lead rest ≠ .step := by
  unfold Statement.classify
  repeat' split
  all_goals simp

/-- Whether a piece starts with a brace. -/
def startsWithBrace (piece : List Statement) : Prop :=
  ∃ s ∈ piece.head?, s.kind = .opening ∨ s.kind = .closing

/-- Whether a piece may end before another one: outside brackets, or before a brace. -/
def Parted (piece next : List Statement) : Prop :=
  startsWithBrace next ∨ depthOf piece = 0

/-- A grouping that has taken `ts` into account: the statements made so far come in pieces, the
latest of which ended outside brackets, and nothing ends the current one. -/
structure Traced (ts : List Token) (pieces : List (List Statement)) (g : Grouping) : Prop where
  made : g.made.toList = pieces.flatten
  isPiece : ∀ piece ∈ pieces, Piece piece
  parted : pieces.IsChain Parted
  closed : ∀ piece ∈ pieces.getLast?, depthOf piece = 0
  unbroken : Unbroken g.current
  depth : g.depth = depthBehind g.current
  cuts : ∀ cut ∈ g.cuts, cut ≤ g.current.length ∧
    depthBehind (g.current.drop (g.current.length - cut)) = 0
  sublist : List.Sublist (tokensOf pieces.flatten ++ g.current.reverse) ts

variable {ts : List Token} {pieces : List (List Statement)} {g g' : Grouping} {t : Token}

/-- The brackets that are open in front of a cut are those that the tokens before it leave open. -/
theorem depthBehind_cut {before after : List Token} :
    depthBehind ((before ++ after).reverse.drop ((before ++ after).reverse.length - before.length)) =
      depthBehind before.reverse := by
  have hlength : (before ++ after).reverse.length - before.length = after.reverse.length := by
    simp
  rw [hlength, List.reverse_append, List.drop_left]

/-- Statements that end at a cut end outside brackets, as all cuts do. -/
theorem depthOf_of_cut {cuts : List Nat} {tokens after : List Token} {before : List Statement}
    (hcuts : ∀ cut ∈ cuts, cut ≤ tokens.reverse.length ∧
      depthBehind (tokens.reverse.drop (tokens.reverse.length - cut)) = 0)
    (htokens : tokens = tokensOf before ++ after) (hmem : (tokensOf before).length ∈ cuts.reverse) :
    depthOf before = 0 := by
  have hzero := (hcuts _ (List.mem_reverse.1 hmem)).2
  rwa [htokens, depthBehind_cut] at hzero

/-- What ends becomes a piece with the same tokens: a statement that nothing inside ends, or the
clauses of a loop header, which are cut outside brackets. -/
theorem flush_cases (hunbroken : Unbroken g.current)
    (hcuts : ∀ cut ∈ g.cuts, cut ≤ g.current.length ∧
      depthBehind (g.current.drop (g.current.length - cut)) = 0)
    (h : g.flush = .ok g') :
    (g.current = [] ∧ g' = { made := g.made }) ∨
      ∃ piece, Piece piece ∧ tokensOf piece = g.current.reverse ∧
        g' = { made := g.made ++ piece.toArray } := by
  unfold flush at h
  split at h
  · rename_i hnil
    cases h
    exact .inl ⟨by simpa using hnil, rfl⟩
  · rename_i lead rest hcons
    refine .inr ?_
    have hcurrent : g.current = (lead :: rest).reverse := by rw [← hcons, List.reverse_reverse]
    rw [hcurrent] at hunbroken hcuts
    rw [hcons]
    split at h
    · rename_i hlead
      obtain ⟨made, hmade, heq⟩ := bind_eq_ok_iff.1 h
      cases heq
      -- A loop header is split at the semicolons that were noted, and each of them stands outside
      -- brackets.
      obtain ⟨start, bound, hkind, rfl, hrest, hbound, hcases⟩ := forHeader_cases hmade
      rcases hcases with ⟨rfl, hcut, htokens⟩ | ⟨step, hstep, rfl, hcut, htokens⟩
      · have hsame : tokensOf [start, bound] = start.lead :: rest := by simp [tokensOf, htokens]
        refine ⟨_, .loop hkind hlead hrest hbound ?_ ?_, hsame, rfl⟩
        · rw [Joined, hsame]
          exact hunbroken
        · exact depthOf_of_cut hcuts (by simpa [tokensOf] using htokens) (by simp [hcut, tokensOf])
      · have hsame : tokensOf [start, bound, step] = start.lead :: rest := by
          simp [tokensOf, htokens]
        refine ⟨_, .stepLoop hkind hlead hrest hbound hstep ?_ ?_ ?_, hsame, rfl⟩
        · rw [Joined, hsame]
          exact hunbroken
        · exact depthOf_of_cut hcuts (by simpa [tokensOf] using htokens) (by simp [hcut, tokensOf])
        · exact depthOf_of_cut hcuts (by simpa [tokensOf] using htokens) (by simp [hcut, tokensOf])
    · rename_i hlead
      cases h
      have hsame : tokensOf [⟨Statement.classify lead rest, lead, rest⟩] = lead :: rest := by
        simp [tokensOf, Statement.tokens]
      refine ⟨_, .plain hlead ?_, hsame, ?_⟩
      · rw [Joined, hsame]
        exact hunbroken
      · simp

/-- Ending the current statement outside brackets. -/
theorem Traced.flush (htraced : Traced ts pieces g) (hdepth : g.depth = 0)
    (h : g.flush = .ok g') : ∃ pieces', Traced ts pieces' g' ∧ g'.current = [] := by
  rcases flush_cases htraced.unbroken htraced.cuts h with
    ⟨hnil, rfl⟩ | ⟨piece, hpiece, htokens, rfl⟩
  · refine ⟨pieces, ⟨htraced.made, htraced.isPiece, htraced.parted, htraced.closed, trivial, rfl,
      by simp, ?_⟩, rfl⟩
    simpa [hnil] using htraced.sublist
  · have hclosed : depthOf piece = 0 := by
      rw [depthOf, htokens, List.reverse_reverse, ← htraced.depth, hdepth]
    refine ⟨pieces ++ [piece], ⟨?_, ?_, ?_, ?_, trivial, rfl, by simp, ?_⟩, rfl⟩
    · simp [htraced.made]
    · rw [List.forall_mem_append, List.forall_mem_singleton]
      exact ⟨htraced.isPiece, hpiece⟩
    · rw [List.isChain_append]
      refine ⟨htraced.parted, .singleton _, fun last hlast next _ => .inr ?_⟩
      exact htraced.closed last hlast
    · simpa using hclosed
    · simpa [tokensOf_append, htokens] using htraced.sublist

/-- A brace ends the current statement and is one of its own. So it adds a piece to those made so
far, and another one if a statement was open. -/
theorem Traced.brace {kind : Statement.Kind} {flushed : Grouping} (htraced : Traced ts pieces g)
    (hbrace : IsBrace kind t) (hflushed : g.flush = .ok flushed) :
    ∃ pieces', Traced (ts ++ [t]) pieces' { flushed with made := flushed.made.push ⟨kind, t, []⟩ } := by
  have hstarts : startsWithBrace [⟨kind, t, []⟩] := by
    rcases hbrace with ⟨rfl, -⟩ | ⟨rfl, -⟩
    · exact ⟨_, rfl, .inl rfl⟩
    · exact ⟨_, rfl, .inr rfl⟩
  have hdepth : depthOf [⟨kind, t, []⟩] = 0 := by
    rcases hbrace with ⟨-, ht⟩ | ⟨-, ht⟩ <;>
      simp [depthOf, tokensOf, Statement.tokens, depthBehind, ht, Token.Kind.depthAfter,
        Token.Kind.isOpening, Token.Kind.isClosing]
  -- The current statement may end inside brackets here, since a brace follows.
  rcases flush_cases htraced.unbroken htraced.cuts hflushed with
    ⟨hnil, rfl⟩ | ⟨piece, hpiece, htokens, rfl⟩
  · refine ⟨pieces ++ [[⟨kind, t, []⟩]], ⟨?_, ?_, ?_, ?_, trivial, rfl, by simp, ?_⟩⟩
    · simp [htraced.made]
    · rw [List.forall_mem_append, List.forall_mem_singleton]
      exact ⟨htraced.isPiece, .brace hbrace⟩
    · rw [List.isChain_append]
      refine ⟨htraced.parted, .singleton _, fun last _ next hnext => .inl ?_⟩
      cases hnext
      exact hstarts
    · simpa using hdepth
    · have hsublist := htraced.sublist
      rw [hnil, List.reverse_nil, List.append_nil] at hsublist
      have hbraceTokens : tokensOf [⟨kind, t, []⟩] = [t] := rfl
      simpa [tokensOf_append, hbraceTokens] using hsublist.append_right [t]
  · refine ⟨pieces ++ [piece, [⟨kind, t, []⟩]], ⟨?_, ?_, ?_, ?_, trivial, rfl, by simp, ?_⟩⟩
    · simp [htraced.made]
    · simp only [List.forall_mem_append, List.forall_mem_cons]
      exact ⟨htraced.isPiece, hpiece, .brace hbrace, by simp⟩
    · rw [List.isChain_append]
      refine ⟨htraced.parted, .cons_cons (.inl hstarts) (.singleton _), fun last hlast _ _ => .inr ?_⟩
      exact htraced.closed last hlast
    · simpa using hdepth
    · have hbraceTokens : tokensOf [⟨kind, t, []⟩] = [t] := rfl
      simpa [tokensOf_append, htokens, hbraceTokens] using htraced.sublist.append_right [t]

/-- A token that ends nothing is added to the current statement. -/
theorem Traced.append (htraced : Traced ts pieces g) (hordinary : isOrdinary t = true)
    (hstays : g.depth = 0 → t.kind ≠ .semicolon ∧ g.endsBefore t = false) :
    Traced (ts ++ [t]) pieces (g.append t) := by
  refine ⟨htraced.made, htraced.isPiece, htraced.parted, htraced.closed, ?_, ?_, fun cut hcut => ?_,
    ?_⟩
  · refine ⟨hordinary, fun hzero => ?_, htraced.unbroken⟩
    rw [← htraced.depth] at hzero
    exact hstays hzero
  · simp [Grouping.append, depthBehind, htraced.depth]
  · obtain ⟨hle, hzero⟩ := htraced.cuts cut hcut
    simp only [Grouping.append, List.length_cons]
    rw [Nat.succ_sub hle, List.drop_succ_cons]
    exact ⟨by omega, hzero⟩
  · simpa [Grouping.append] using htraced.sublist.append_right [t]

/-- Taking a token into account keeps the account of the pieces: by its kind, the token is left out,
ends a statement, is noted as a cut, or joins the current statement. -/
theorem Traced.step (htraced : Traced ts pieces g) (h : Step g t g') :
    ∃ pieces', Traced (ts ++ [t]) pieces' g' := by
  have hskipped : Traced (ts ++ [t]) pieces g :=
    { htraced with sublist := htraced.sublist.trans (List.sublist_append_left ..) }
  cases h with
  | skip => exact ⟨pieces, hskipped⟩
  | brace hbrace hflush => exact htraced.brace hbrace hflush
  | cut _ hdepth =>
    refine ⟨pieces, { hskipped with cuts := fun cut hcut => ?_ }⟩
    rcases List.mem_cons.1 hcut with rfl | hcut
    · simp [← htraced.depth, hdepth]
    · exact htraced.cuts cut hcut
  | finish _ hdepth _ hflush =>
    obtain ⟨pieces', hflushed, -⟩ := hskipped.flush hdepth hflush
    exact ⟨pieces', hflushed⟩
  | start hordinary hkind hdepth _ hflush =>
    obtain ⟨pieces', hflushed, hnil⟩ := htraced.flush hdepth hflush
    refine ⟨pieces', hflushed.append hordinary fun _ => ⟨hkind, ?_⟩⟩
    simp [endsBefore, hnil]
  | stay hordinary hstays => exact ⟨pieces, htraced.append hordinary hstays⟩

/-- Statements that are made of tokens come in pieces. -/
theorem Traced.foldlM {more : List Token} (htraced : Traced ts pieces g)
    (h : more.foldlM Grouping.push g = .ok g') : ∃ pieces', Traced (ts ++ more) pieces' g' := by
  induction more generalizing ts pieces g with
  | nil =>
    cases h
    exact ⟨pieces, by simpa using htraced⟩
  | cons t more ih =>
    obtain ⟨next, hnext, h⟩ := bind_eq_ok_iff.1 h
    obtain ⟨pieces', hpushed⟩ := htraced.step (.of_push hnext)
    simpa using ih hpushed h

end Grouping

/-- Statements that are made of tokens come in pieces, each of which ends outside brackets or before
a brace. -/
theorem Statement.pieces_of_group {ts : List Token} {statements : List Statement}
    (h : group ts = .ok statements) :
    ∃ pieces : List (List Statement), statements = pieces.flatten ∧ (∀ piece ∈ pieces, Grouping.Piece piece) ∧
      pieces.IsChain Grouping.Parted ∧ (Grouping.tokensOf statements).Sublist ts := by
  simp only [group, bind_eq_ok_iff] at h
  obtain ⟨g, hg, flushed, hflushed, heq⟩ := h
  cases heq
  have hempty : Grouping.Traced [] [] {} :=
    ⟨rfl, by simp, .nil, by simp, trivial, rfl, by simp, by simp [Grouping.tokensOf]⟩
  obtain ⟨pieces, htraced⟩ := hempty.foldlM hg
  rw [List.nil_append] at htraced
  have hsublist := htraced.sublist
  rcases Grouping.flush_cases htraced.unbroken htraced.cuts hflushed with
    ⟨hnil, rfl⟩ | ⟨piece, hpiece, htokens, rfl⟩
  · refine ⟨pieces, htraced.made, htraced.isPiece, htraced.parted, ?_⟩
    rw [htraced.made]
    simpa [hnil] using hsublist
  · have hmade : (g.made ++ piece.toArray).toList = (pieces ++ [piece]).flatten := by
      simp [htraced.made]
    refine ⟨pieces ++ [piece], hmade, ?_, ?_, ?_⟩
    · rw [List.forall_mem_append, List.forall_mem_singleton]
      exact ⟨htraced.isPiece, hpiece⟩
    · rw [List.isChain_append]
      exact ⟨htraced.parted, .singleton _, fun last hlast _ _ => .inr (htraced.closed last hlast)⟩
    · rw [hmade]
      simpa [Grouping.tokensOf_append, htokens] using hsublist

namespace Statement

variable {ts : List Token} {statements : List Statement} {s : Statement}

/-- Only braces and the clauses of a loop header are not classified by their tokens. -/
theorem kind_of_group (h : group ts = .ok statements) (hs : s ∈ statements) :
    s.kind ∈ [.opening, .closing, .header, .bound, .step] ∨ s.kind = classify s.lead s.rest := by
  obtain ⟨pieces, rfl, hpieces, -⟩ := pieces_of_group h
  obtain ⟨piece, hpiece, hmem⟩ := List.mem_flatten.1 hs
  cases hpieces piece hpiece with
  | brace hbrace =>
    rw [List.mem_singleton.1 hmem]
    rcases hbrace with ⟨rfl, -⟩ | ⟨rfl, -⟩ <;> simp
  | plain =>
    rw [List.mem_singleton.1 hmem]
    exact .inr rfl
  | loop hkind _ _ hbound =>
    simp only [List.mem_cons, List.not_mem_nil, or_false] at hmem
    rcases hmem with rfl | rfl <;> simp [hkind, hbound]
  | stepLoop hkind _ _ hbound hstep =>
    simp only [List.mem_cons, List.not_mem_nil, or_false] at hmem
    rcases hmem with rfl | rfl | rfl <;> simp [hkind, hbound, hstep]

/-- A declaration starts with its keyword. -/
theorem lead_of_declaration (h : group ts = .ok statements) (hs : s ∈ statements)
    (hkind : s.kind = .declaration ∨ s.kind = .initialization) :
    s.lead.kind = .keyword .var ∨ s.lead.kind = .keyword .const := by
  have hclassify : classify s.lead s.rest = s.kind := by
    rcases kind_of_group h hs with hother | hclassify
    · rcases hkind with hkind | hkind <;> simp [hkind] at hother
    · exact hclassify.symm
  rw [← hclassify] at hkind
  unfold classify at hkind
  split at hkind
  case h_8 hvar => exact .inl hvar
  case h_9 hconst => exact .inr hconst
  case h_10 => split at hkind <;> simp at hkind
  all_goals simp at hkind

/-- A declaration without initializers has no equal sign. -/
theorem splitTop_of_declaration (h : group ts = .ok statements) (hs : s ∈ statements)
    (hkind : s.kind = .declaration) : Token.splitTop (· = .equal) 0 s.tokens = none := by
  have hclassify : .declaration = classify s.lead s.rest := by
    simpa [hkind] using kind_of_group h hs
  have hlead := lead_of_declaration h hs (.inl hkind)
  unfold classify at hclassify
  rcases hlead with hlead | hlead <;> rw [hlead] at hclassify <;> dsimp only at hclassify <;>
    split at hclassify
  · cases hclassify
  · rename_i hnone
    simpa [tokens] using hnone
  · cases hclassify
  · rename_i hnone
    simpa [tokens] using hnone

/-- The header of a block starts with the word for it. Whether it does is decided when its piece is
made, and kept from there on. -/
theorem lead_of_header (h : group ts = .ok statements) (hs : s ∈ statements)
    (hkind : s.kind = .header) :
    s.lead.kind = .keyword .ifWord ∨ s.lead.kind = .keyword .whileWord ∨
      s.lead.kind = .keyword .forWord := by
  obtain ⟨pieces, rfl, hpieces, -⟩ := pieces_of_group h
  obtain ⟨piece, hpiece, hmem⟩ := List.mem_flatten.1 hs
  cases hpieces piece hpiece with
  | brace hbrace =>
    rw [List.mem_singleton.1 hmem] at hkind
    rcases hbrace with ⟨rfl, -⟩ | ⟨rfl, -⟩ <;> cases hkind
  | @plain lead rest =>
    rw [List.mem_singleton.1 hmem] at hkind ⊢
    simp only [classify] at hkind
    split at hkind
    case h_2 hif => exact .inl hif
    case h_3 hwhile => exact .inr (.inl hwhile)
    all_goals try split at hkind
    all_goals cases hkind
  | loop _ hlead _ hbound =>
    simp only [List.mem_cons, List.not_mem_nil, or_false] at hmem
    rcases hmem with rfl | rfl
    · exact .inr (.inr hlead)
    · rw [hbound] at hkind
      cases hkind
  | stepLoop _ hlead _ hbound hstep =>
    simp only [List.mem_cons, List.not_mem_nil, or_false] at hmem
    rcases hmem with rfl | rfl | rfl
    · exact .inr (.inr hlead)
    · rw [hbound] at hkind
      cases hkind
    · rw [hstep] at hkind
      cases hkind

/-- A statement that leaves a loop starts with the word for it. -/
theorem lead_of_jump (h : group ts = .ok statements) (hs : s ∈ statements) (hkind : s.kind = .jump) :
    s.lead.kind = .keyword .breakWord ∨ s.lead.kind = .keyword .continueWord := by
  have hclassify : .jump = classify s.lead s.rest := by
    simpa [hkind] using kind_of_group h hs
  unfold classify at hclassify
  split at hclassify
  case h_5 hbreak => exact .inl hbreak
  case h_6 hcontinue => exact .inr hcontinue
  all_goals try split at hclassify
  all_goals cases hclassify

end Statement

end Sprout
