import Mathlib.Data.List.Nodup
import Sprout.Compile
import Sprout.Proofs.Emission.Succession
import Sprout.Proofs.Relocation.Emission
import Sprout.Proofs.Statements.Regrouping

namespace Sprout

/-- Positions that differ can be moved anywhere, one by one. -/
theorem Position.exists_map_eq {ps qs : List Position} (hps : ps.Nodup)
    (hlength : qs.length = ps.length) : ∃ f, qs = ps.map f := by
  induction ps generalizing qs with
  | nil => exact ⟨id, by simpa using hlength⟩
  | cons p ps ih =>
    obtain ⟨q, qs, rfl⟩ := List.exists_cons_of_length_eq_add_one hlength
    rw [List.nodup_cons] at hps
    obtain ⟨f, rfl⟩ := ih hps.2 (by simpa using hlength)
    refine ⟨Function.update f p q, ?_⟩
    rw [List.map_cons, Function.update_self]
    congr 1
    refine List.map_congr_left fun p' hp' => ?_
    rw [Function.update_of_ne]
    rintro rfl
    exact hps.1 hp'

namespace Token

/-- Tokens that are written down afresh are as many as before. -/
theorem length_spaced (p : Position) (ts : List Token) : (spaced p ts).length = ts.length := by
  induction ts generalizing p with
  | nil => rfl
  | cons t ts ih => simp [spaced, ih]

/-- Tokens that are written down are the tokens at other positions. -/
theorem spaced_eq_map {p : Position} {ts : List Token} {f : Position → Position}
    (h : (spaced p ts).map Token.position = (ts.map Token.position).map f) :
    spaced p ts = ts.map (relocate f) := by
  induction ts generalizing p with
  | nil => rfl
  | cons t ts ih =>
    simp only [spaced, List.map_cons, List.cons.injEq] at h
    rw [spaced, List.map_cons, ih h.2, h.1]
    rfl

end Token

namespace Grouping

variable {f : Position → Position} {ts : List Token} {piece next : List Statement}

/-- The tokens of moved statements are the moved tokens. -/
theorem tokensOf_relocate (f : Position → Position) (statements : List Statement) :
    tokensOf (statements.map (Statement.relocate f)) =
      (tokensOf statements).map (Token.relocate f) := by
  simp [tokensOf, List.flatMap_map, List.map_flatMap]

/-- Statements that are placed afresh have as many tokens as before. -/
theorem length_tokensOf_placed (p : Position) (statements : List Statement) :
    (tokensOf (Statement.placed p statements)).length = (tokensOf statements).length := by
  induction statements generalizing p with
  | nil => rfl
  | cons s rest ih =>
    have hrest := ih (s.behind p rest.head?)
    simp only [tokensOf] at hrest
    simp [tokensOf, Statement.placed, Statement.tokens_place, Token.length_spaced, hrest]

/-- Statements are placed by moving each position to where the new layout has it. -/
theorem placed_eq_map {p : Position} {statements : List Statement}
    (h : (tokensOf (Statement.placed p statements)).map Token.position =
      ((tokensOf statements).map Token.position).map f) :
    Statement.placed p statements = statements.map (Statement.relocate f) := by
  induction statements generalizing p with
  | nil => rfl
  | cons s rest ih =>
    simp only [tokensOf, Statement.placed, List.flatMap_cons, List.map_append] at h
    obtain ⟨hown, hrest⟩ := List.append_inj h
      (by simp [Statement.tokens_place, Token.length_spaced])
    rw [Statement.tokens_place] at hown
    have htokens : (s.place p).tokens = (s.relocate f).tokens := Token.spaced_eq_map hown
    have hplace : s.place p = s.relocate f := by
      obtain ⟨hlead, hbehind⟩ := List.cons.inj htokens
      change (⟨s.kind, (s.place p).lead, (s.place p).rest⟩ : Statement) = s.relocate f
      rw [hlead, hbehind]
      rfl
    rw [Statement.placed, List.map_cons, ih hrest, hplace]

/-- Statements whose tokens differ in their positions are written down by moving them. -/
theorem exists_placed_eq_map (p : Position) {statements : List Statement}
    (h : ((tokensOf statements).map Token.position).Nodup) :
    ∃ f, Statement.placed p statements = statements.map (Statement.relocate f) := by
  have hlength : ((tokensOf (Statement.placed p statements)).map Token.position).length =
      ((tokensOf statements).map Token.position).length := by
    simp [length_tokensOf_placed]
  obtain ⟨f, hf⟩ := Position.exists_map_eq h hlength
  exact ⟨f, placed_eq_map hf⟩

/-- In the canonical layout a statement starts on a line of its own, which is what separates it from
the one before. -/
theorem marked_placed (p : Position) (statements : List Statement) :
    Marked (Statement.placed p statements) (Statement.laid p statements) := by
  induction statements generalizing p with
  | nil => exact .nil
  | cons s rest ih =>
    have hrest := ih (s.behind p rest.head?)
    have hhead := Statement.isClause_head?_placed (s.behind p rest.head?) rest
    rw [Statement.placed, Statement.laid, Statement.mark]
    split
    · rename_i hclause
      rw [hclause] at hhead
      simpa using Marked.clause hhead rfl hrest
    · rename_i hclause
      rw [Bool.not_eq_true] at hclause
      rw [hclause] at hhead
      simpa using Marked.plain hhead hrest

/-- The brackets that tokens leave open do not depend on where they stand. -/
theorem depthBehind_relocate (ts : List Token) :
    depthBehind (ts.map (Token.relocate f)) = depthBehind ts := by
  induction ts with
  | nil => rfl
  | cons t ts ih => simp [depthBehind, ih]

/-- The brackets that statements leave open do not depend on where they stand. -/
theorem depthOf_relocate (statements : List Statement) :
    depthOf (statements.map (Statement.relocate f)) = depthOf statements := by
  rw [depthOf, depthOf, tokensOf_relocate, ← List.map_reverse, depthBehind_relocate]

/-- What kind of statement tokens make up does not depend on where they stand. -/
theorem classify_relocate (lead : Token) (rest : List Token) :
    Statement.classify (lead.relocate f) (rest.map (Token.relocate f)) =
      Statement.classify lead rest := by
  have hsplit : ∀ p, (Token.splitTop p 0 (lead.relocate f :: rest.map (Token.relocate f))).isSome =
      (Token.splitTop p 0 (lead :: rest)).isSome := by
    intro p
    rw [← List.map_cons, Token.splitTop_relocate, Option.isSome_map]
  simp only [Statement.classify, Token.kind_relocate, hsplit]

/-- Tokens that are written down one behind the other stay in one statement: a line ends between two
of them only if it did so before. -/
theorem Unbroken.relocate (hbefore : ts.IsChain Token.Before)
    (hfollows : (ts.map (Token.relocate f)).IsChain Token.Follows) (h : Unbroken ts.reverse) :
    Unbroken (ts.map (Token.relocate f)).reverse := by
  induction ts using List.reverseRecOn with
  | nil => trivial
  | append_singleton ts t ih =>
    rw [List.map_append, List.isChain_append] at hfollows
    rw [List.isChain_append] at hbefore
    obtain ⟨hbefore, -, hnext⟩ := hbefore
    obtain ⟨hfollows, -, hline⟩ := hfollows
    rw [List.reverse_append, List.reverse_singleton, List.singleton_append] at h
    rw [List.map_append, List.map_singleton, List.reverse_append, List.reverse_singleton,
      List.singleton_append]
    obtain ⟨hordinary, hstays, hrest⟩ := h
    refine ⟨hordinary, fun hdepth => ?_, ih hbefore hfollows hrest⟩
    rw [← List.map_reverse, depthBehind_relocate] at hdepth
    obtain ⟨hsemicolon, hends⟩ := hstays hdepth
    refine ⟨hsemicolon, ?_⟩
    rw [← List.map_reverse]
    cases hlast : ts.reverse with
    | nil => rfl
    | cons last earlier =>
      have hmem : ts.getLast? = some last := by
        rw [← List.head?_reverse, hlast]
        rfl
      have hnext := (hnext last hmem t rfl).line
      have hline := hline (last.relocate f) (by simp [hmem]) (t.relocate f) rfl
      rw [hlast] at hends
      unfold endsBefore at hends ⊢
      simp only [List.map_cons, Token.kind_relocate, List.isEmpty_map] at hends ⊢
      split at hends
      · rename_i hstarts
        rw [if_pos hstarts]
        exact hends
      · rename_i hstarts
        rw [if_neg hstarts]
        simp only [Bool.and_eq_false_iff, decide_eq_false_iff_not, ne_eq, not_not,
          Bool.not_eq_false'] at hends ⊢
        refine hends.imp_left fun hsame => ?_
        have hcount : last.lexeme.toList.count '\n' = 0 := by omega
        rw [hline, Token.lexeme_relocate, hcount, Nat.add_zero]

/-- Tokens that belong together stay together on one line. -/
theorem Joined.relocate (hbefore : (tokensOf piece).IsChain Token.Before)
    (hfollows : ((tokensOf piece).map (Token.relocate f)).IsChain Token.Follows)
    (h : Joined piece) : Joined (piece.map (Statement.relocate f)) := by
  rw [Joined, tokensOf_relocate]
  exact Unbroken.relocate hbefore hfollows h

/-- The statements of one piece stay one piece at the other positions, if its tokens still follow
each other. Positions are looked at only for line breaks between tokens. -/
theorem Piece.relocate (hbefore : (tokensOf piece).IsChain Token.Before)
    (hfollows : ((tokensOf piece).map (Token.relocate f)).IsChain Token.Follows)
    (h : Piece piece) : Piece (piece.map (Statement.relocate f)) := by
  cases h with
  | brace h => exact .brace h
  | @plain lead rest hlead hjoined =>
    have hjoined := hjoined.relocate hbefore hfollows
    simp only [List.map_singleton, Statement.relocate, ← classify_relocate (f := f) lead rest]
      at hjoined ⊢
    exact .plain hlead hjoined
  | @loop start bound hkind hlead hrest hbound hjoined hdepth =>
    refine .loop hkind hlead ?_ hbound (hjoined.relocate hbefore hfollows) ?_
    · simpa [Statement.relocate] using hrest
    · rw [← hdepth]
      exact depthOf_relocate [start]
  | @stepLoop start bound step hkind hlead hrest hbound hstep hjoined hdepth hdepth' =>
    refine .stepLoop hkind hlead ?_ hbound hstep (hjoined.relocate hbefore hfollows) ?_ ?_
    · simpa [Statement.relocate] using hrest
    · rw [← hdepth]
      exact depthOf_relocate [start]
    · rw [← hdepth']
      exact depthOf_relocate [start, bound]

/-- The clauses of a loop header are written down in one line with it. -/
theorem follows_tokensOf (hown : ∀ s ∈ piece, s.tokens.IsChain Token.Follows)
    (hbehind : piece.IsChain Statement.Behind) (hclauses : ∀ s ∈ piece.tail, s.isClause = true) :
    (tokensOf piece).IsChain Token.Follows := by
  induction piece with
  | nil => exact .nil
  | cons s rest ih =>
    rw [List.forall_mem_cons] at hown
    rw [List.isChain_cons] at hbehind
    have hrest := ih hown.2 hbehind.2 fun s' hs' => hclauses s' (List.mem_of_mem_tail hs')
    refine hown.1.append hrest fun t ht t' ht' => ?_
    cases rest with
    | nil => cases ht'
    | cons s' rest =>
      cases ht'
      have hline := hbehind.1 s' rfl t ht
      rwa [if_pos (hclauses s' (by simp))] at hline

/-- Only the first statement of a piece is no clause of a `for` header. -/
theorem Piece.isClause_of_mem_tail (h : Piece piece) : ∀ s ∈ piece.tail, s.isClause = true := by
  cases h with
  | brace => simp
  | plain => simp
  | loop _ _ _ hbound => simp [Statement.isClause, hbound]
  | stepLoop _ _ _ hbound hstep => simp [Statement.isClause, hbound, hstep]

/-- A piece starts with a brace wherever it stands. -/
theorem startsWithBrace_relocate :
    startsWithBrace (piece.map (Statement.relocate f)) ↔ startsWithBrace piece := by
  cases piece with
  | nil => simp [startsWithBrace]
  | cons s rest => simp [startsWithBrace, Statement.relocate]

/-- A statement that ends well and is followed in a later line ends before what follows. -/
theorem endsBefore_of_endsWell {t lead : Token} {rest : List Token}
    (hlead : lead.kind ≠ .keyword .elseWord ∧ lead.kind ≠ .keyword .forWord)
    (hends : Token.EndsWell (lead :: rest)) (hline : ∀ last ∈ (lead :: rest).getLast?,
      last.position.line < t.position.line) :
    endsBefore { current := (lead :: rest).reverse } t = true := by
  cases hlast : (lead :: rest).reverse with
  | nil => simp at hlast
  | cons last earlier =>
    have hmem : (lead :: rest).getLast? = some last := by
      rw [← List.head?_reverse, hlast]
      rfl
    have hline := hline last hmem
    have hends := hends last hmem
    unfold endsBefore
    dsimp only
    split
    · cases earlier with
      | nil =>
        have heq : lead = last := by
          have hreverse := congrArg List.reverse hlast
          rw [List.reverse_reverse] at hreverse
          exact (List.cons.inj hreverse).1
        simp [← heq, hlead]
      | cons => rfl
    · simp only [hends, Bool.not_false, Bool.and_true, decide_eq_true_eq]
      omega

/-- Pieces of an emitted program are told apart when the second one is written down in a later
line. -/
theorem Separated.relocate (hpiece : Piece piece) (hnext : Piece next) (hparted : Parted piece next)
    (hsucceeds : ∀ s ∈ piece.getLast?, ∀ s' ∈ next.head?, Emission.Succeeds s s')
    (hbehind : ∀ s ∈ (piece.map (Statement.relocate f)).getLast?,
      ∀ s' ∈ (next.map (Statement.relocate f)).head?, s.Behind s') :
    Separated (piece.map (Statement.relocate f)) (next.map (Statement.relocate f)) := by
  rw [Separated, startsWithBrace_relocate, startsWithBrace_relocate, depthOf_relocate]
  by_cases hbrace : startsWithBrace next
  · exact .inl hbrace
  by_cases hbrace' : startsWithBrace piece
  · exact .inr (.inl hbrace')
  refine .inr (.inr ⟨hparted.resolve_left hbrace, ?_⟩)
  obtain ⟨s', others, rfl, hclause⟩ := hnext.eq_cons
  rintro _ ⟨⟩
  -- What follows is no brace and no clause, so nothing waits for it.
  have hcontinues : s'.kind.continuesHeader = false := by
    simp only [Statement.isClause, Bool.or_eq_false_iff, decide_eq_false_iff_not] at hclause
    have hopening : s'.kind ≠ .opening := fun hkind => hbrace ⟨s', rfl, .inl hkind⟩
    cases hkind : s'.kind <;> simp_all [Statement.Kind.continuesHeader]
  have hwaits : ∀ s ∈ piece.getLast?, s.kind.waits = false := by
    intro s hs
    by_contra hwaits
    have hcontinues' := (hsucceeds s hs s' rfl).continuesHeader (by simpa using hwaits)
    rw [hcontinues] at hcontinues'
    cases hcontinues'
  cases hpiece with
  | brace h =>
    refine absurd ⟨_, rfl, ?_⟩ hbrace'
    rcases h with ⟨rfl, -⟩ | ⟨rfl, -⟩ <;> simp
  | @loop _ bound _ _ _ hbound =>
    have hwaits := hwaits bound rfl
    rw [hbound] at hwaits
    cases hwaits
  | @stepLoop _ _ step _ _ _ _ hstep =>
    have hwaits := hwaits step rfl
    rw [hstep] at hwaits
    cases hwaits
  | @plain lead rest hlead =>
    have hwaits := hwaits _ rfl
    have hends : Token.EndsWell (lead :: rest) := (hsucceeds _ rfl s' rfl).endsWell rfl hwaits
    have hbehind := hbehind _ rfl _ rfl
    have helse : lead.kind ≠ .keyword .elseWord := by
      intro helse
      simp [Statement.classify, helse, Statement.Kind.waits] at hwaits
    have hclause' : (s'.relocate f).isClause = false := hclause
    simp only [Statement.Behind, hclause', Bool.false_eq_true, if_false] at hbehind
    rw [tokensOf_relocate]
    simp only [tokensOf, List.flatMap_singleton]
    refine endsBefore_of_endsWell ⟨helse, hlead⟩ ?_ hbehind
    intro last hlast
    rw [← List.map_cons, List.getLast?_map] at hlast
    obtain ⟨t, ht, rfl⟩ := Option.mem_map.1 hlast
    exact hends t ht

/-- Statements that are separated by a line stay separate at positions that have a line between
them. -/
theorem separated_relocate {pieces : List (List Statement)} (hpieces : ∀ piece ∈ pieces, Piece piece)
    (hparted : pieces.IsChain Parted)
    (hsucceeds : pieces.IsChain fun piece next =>
      ∀ s ∈ piece.getLast?, ∀ s' ∈ next.head?, Emission.Succeeds s s')
    (hbehind : (pieces.map (·.map (Statement.relocate f))).IsChain fun piece next =>
      ∀ s ∈ piece.getLast?, ∀ s' ∈ next.head?, Statement.Behind s s') :
    (pieces.map (·.map (Statement.relocate f))).IsChain Separated := by
  induction pieces with
  | nil => exact .nil
  | cons piece pieces ih =>
    cases pieces with
    | nil => exact .singleton _
    | cons next pieces =>
      rw [List.forall_mem_cons] at hpieces
      rw [List.isChain_cons_cons] at hparted hsucceeds
      rw [List.map_cons, List.map_cons, List.isChain_cons_cons] at hbehind
      refine .cons_cons ?_ (ih hpieces.2 hparted.2 hsucceeds.2 hbehind.2)
      exact Separated.relocate hpieces.1 (hpieces.2 next (by simp)) hparted.1 hsucceeds.1 hbehind.1

end Grouping

namespace Statement

open Grouping

/-- Statements that are written down are cut into the same statements, at other positions. Each
piece follows in one line, and the next one starts on another line with a token that may start
one. -/
theorem group_laid {statements : List Statement} {tokens : List Token} {deny : Bool}
    {e e' : Emission} (hgroup : group tokens = .ok statements)
    (htokens : tokens.Pairwise Token.Before) (hlexemes : ∀ t ∈ tokens, t.lexeme ≠ "")
    (heof : ∀ t ∈ tokens, t.kind ≠ .eof) (hrun : Emission.run deny e statements = .ok e')
    (p : Position) :
    ∃ f, group (laid p statements) = .ok (statements.map (relocate f)) := by
  obtain ⟨pieces, rfl, hpieces, hparted, hsublist⟩ := pieces_of_group hgroup
  have hbefore := htokens.sublist hsublist
  have hnodup : ((tokensOf pieces.flatten).map Token.position).Nodup := by
    rw [List.Nodup, List.pairwise_map]
    refine hbefore.imp_of_mem fun ht _ h => h.position_ne (hlexemes _ (hsublist.subset ht))
  -- No two tokens stand at one position, so the new positions are a function of the old ones.
  obtain ⟨f, hf⟩ := exists_placed_eq_map p hnodup
  have hmoved : pieces.flatten.map (relocate f) = (pieces.map (·.map (relocate f))).flatten :=
    List.map_flatten
  have hne : [] ∉ pieces := by
    intro hnil
    obtain ⟨_, _, hcons, -⟩ := (hpieces [] hnil).eq_cons
    cases hcons
  have hne' : [] ∉ pieces.map (·.map (relocate f)) := by simpa using hne
  have hsucceeds := Emission.succeeds_of_run (fun s hs t ht =>
    heof t (hsublist.subset (List.mem_flatMap_of_mem hs ht))) hrun
  have hbehind := behind_placed p pieces.flatten
  have hown := follows_of_mem_placed p pieces.flatten
  have hmarked := marked_placed p pieces.flatten
  rw [List.isChain_flatten hne] at hsucceeds
  rw [hf, hmoved, List.isChain_flatten hne'] at hbehind
  rw [hf, hmoved] at hown hmarked
  refine ⟨f, ?_⟩
  rw [hmoved]
  refine group_of_pieces ?_ (separated_relocate hpieces hparted hsucceeds.2 hbehind.2) hmarked
  rw [List.forall_mem_map]
  intro piece hmem
  have hpiece := hpieces piece hmem
  have hmem' := List.mem_map_of_mem (f := List.map (relocate f)) hmem
  refine hpiece.relocate ?_ ?_
  · exact (hbefore.sublist ((List.sublist_flatten_of_mem hmem).flatMap _)).isChain
  · rw [← tokensOf_relocate]
    refine follows_tokensOf (fun s hs => hown s (List.mem_flatten_of_mem hmem' hs))
      (hbehind.1 _ hmem') ?_
    rw [← List.map_tail, List.forall_mem_map]
    exact hpiece.isClause_of_mem_tail

/-- No token of a program lacks its end. -/
theorem ne_unknown_of_group {statements : List Statement} {tokens : List Token}
    (h : group tokens = .ok statements) : ∀ t ∈ tokens, t.kind ≠ .unknown := by
  have hfold : ∀ {ts : List Token} {g g' : Grouping}, ts.foldlM Grouping.push g = .ok g' →
      ∀ t ∈ ts, t.kind ≠ .unknown := by
    intro ts
    induction ts with
    | nil => simp
    | cons t ts ih =>
      intro g g' h
      rw [List.foldlM_cons, bind_eq_ok_iff] at h
      obtain ⟨next, hpush, hrest⟩ := h
      refine List.forall_mem_cons.2 ⟨fun hunknown => ?_, ih hrest⟩
      simp [Grouping.push, hunknown] at hpush
  obtain ⟨g, hg, -⟩ := bind_eq_ok_iff.1 h
  exact hfold hg

/-- The canonical layout adds no comments: all its tokens are those of the statements and the
semicolons in front of clauses. -/
theorem isSignificant_of_mem_laid {p : Position} {statements : List Statement}
    (h : ∀ s ∈ statements, ∀ t ∈ s.tokens, t.isSignificant = true) :
    ∀ t ∈ laid p statements, t.isSignificant = true := by
  have hspaced : ∀ {ts : List Token} {p}, (∀ t ∈ ts, t.isSignificant = true) →
      ∀ t ∈ Token.spaced p ts, t.isSignificant = true := by
    intro ts
    induction ts with
    | nil => simp [Token.spaced]
    | cons t ts ih =>
      intro p hts
      rw [List.forall_mem_cons] at hts
      exact List.forall_mem_cons.2 ⟨hts.1, ih hts.2⟩
  induction statements generalizing p with
  | nil => simp [laid]
  | cons s rest ih =>
    rw [List.forall_mem_cons] at h
    rw [laid, List.forall_mem_append, List.forall_mem_append]
    refine ⟨⟨hspaced h.1, ?_⟩, ih h.2⟩
    unfold mark
    split
    · simp [Token.isSignificant]
    · simp

end Statement

/-- The diagnostic without its place. -/
def Diagnostic.unplaced (d : Diagnostic) : Diagnostic :=
  { d with position := none }

/-- The warnings of a compilation, wherever they are. -/
def Artifact.warnings (artifact : Artifact) : List Diagnostic :=
  (artifact.diagnostics.filter Diagnostic.isWarning).map Diagnostic.unplaced

namespace Emission

variable (f : Position → Position) (e : Emission)

/-- A program is finished wherever its statements stand. -/
theorem unfinished?_relocate : (e.relocate f).unfinished? = e.unfinished? := by
  have hpending : (e.relocate f).pending.isSome = e.pending.isSome := Option.isSome_map
  rw [unfinished?, unfinished?, hpending]
  rfl

/-- The code of a program holds no positions. -/
theorem code_relocate (options : Options) : (e.relocate f).code options = e.code options := rfl

/-- The warnings of a moved program are the same but for their places. -/
theorem warnings_relocate :
    ((e.relocate f).diagnostics.filter Diagnostic.isWarning).map Diagnostic.unplaced =
      (e.diagnostics.filter Diagnostic.isWarning).map Diagnostic.unplaced := by
  simp only [relocate, List.filter_map, List.map_map]
  rfl

end Emission

namespace Source

/-- The source with its statements written down afresh, one a line. -/
def canonical (source : Source) : Except CompileError Source := do
  let tokens ← source.significant
  let statements ← source.statements tokens
  return { source with text := Statement.canonical statements }

variable {source : Source} {tokens : List Token} {statements : List Statement}

/-- The tokens of a program can be written down by themselves. -/
theorem standalone_of_statements (htokens : source.significant = .ok tokens)
    (hstatements : source.statements tokens = .ok statements) : ∀ t ∈ tokens, t.Standalone := by
  obtain ⟨all, hscan, rfl⟩ := eq_of_significant htokens
  have hgroup := mapError_eq_ok_iff.1 hstatements
  intro t ht
  obtain ⟨hmem, hsignificant⟩ := List.mem_filter.1 ht
  exact Token.standalone_of_isSignificant hscan hmem hsignificant
    (Statement.ne_unknown_of_group hgroup t ht)

/-- No token of a program is empty. -/
theorem lexeme_ne_of_statements (htokens : source.significant = .ok tokens)
    (hstatements : source.statements tokens = .ok statements) : ∀ t ∈ tokens, t.lexeme ≠ "" := by
  intro t ht
  obtain ⟨c, more, hlexeme, -⟩ := standalone_of_statements htokens hstatements t ht
  simp [hlexeme]

/-- The tokens of a program stand one behind the other. -/
theorem before_of_significant (htokens : source.significant = .ok tokens) :
    tokens.Pairwise Token.Before := by
  obtain ⟨all, hscan, rfl⟩ := eq_of_significant htokens
  exact (Token.before_of_scan hscan).2.sublist List.filter_sublist

/-- The tokens of a program that is written down afresh. -/
theorem significant_canonical (htokens : source.significant = .ok tokens)
    (hstatements : source.statements tokens = .ok statements) :
    significant ⟨source.name, Statement.canonical statements⟩ =
      .ok (Statement.laid .start statements) := by
  obtain ⟨-, -, -, -, hsublist⟩ := Statement.pieces_of_group (mapError_eq_ok_iff.1 hstatements)
  have hmem : ∀ s ∈ statements, ∀ t ∈ s.tokens, t ∈ tokens :=
    fun s hs t ht => hsublist.subset (List.mem_flatMap_of_mem hs ht)
  have hscans : Token.Scans .start (Statement.canonical statements).toList [] _ :=
    Statement.scans_canonical fun s hs t ht =>
      standalone_of_statements htokens hstatements t (hmem s hs t ht)
  have hall : (Statement.laid .start statements).filter Token.isSignificant =
      Statement.laid .start statements := by
    obtain ⟨all, -, rfl⟩ := eq_of_significant htokens
    exact List.filter_eq_self.2 (Statement.isSignificant_of_mem_laid fun s hs t ht =>
      (List.mem_filter.1 (hmem s hs t ht)).2)
  simp only [significant, Source.tokens, hscans.scan_eq, List.filter_append, hall]
  simp [Token.isSignificant]

/-- The statements of a program that is written down afresh are its statements at other
positions. -/
theorem statements_canonical {deny : Bool} {e : Emission} (htokens : source.significant = .ok tokens)
    (hstatements : source.statements tokens = .ok statements)
    (hrun : Emission.run deny {} statements = .ok e) :
    ∃ f, Source.statements ⟨source.name, Statement.canonical statements⟩
        (Statement.laid .start statements) =
      .ok (statements.map (Statement.relocate f)) := by
  obtain ⟨all, hscan, htokens'⟩ := eq_of_significant htokens
  have hlexemes := lexeme_ne_of_statements htokens hstatements
  have heof : ∀ t ∈ tokens, t.kind ≠ .eof := by
    intro t ht
    rw [htokens'] at ht
    exact Token.ne_eof_of_isSignificant (List.mem_filter.1 ht).2
  have hbefore := before_of_significant htokens
  obtain ⟨f, hlaid⟩ := Statement.group_laid (mapError_eq_ok_iff.1 hstatements) hbefore hlexemes heof
    hrun .start
  exact ⟨f, mapError_eq_ok_iff.2 hlaid⟩

/-- A source that compiles also compiles when its statements are written down afresh, to the same
code and with the same warnings. -/
theorem compile_canonical {source : Source} {options : Options} {artifact : Artifact}
    (h : source.compile options = .ok artifact) :
    ∃ canonical artifact', source.canonical = .ok canonical ∧
      canonical.compile options = .ok artifact' ∧ artifact'.code = artifact.code ∧
      artifact'.warnings = artifact.warnings := by
  obtain ⟨tokens, statements, e, htokens, hstatements, hemits, hcode, hdiagnostics⟩ :=
    eq_of_compile h
  obtain ⟨hrun, hunfinished⟩ := eq_of_emission hemits
  obtain ⟨f, hstatements'⟩ := statements_canonical htokens hstatements hrun
  have htokens' := significant_canonical htokens hstatements
  have hemission : emission ⟨source.name, Statement.canonical statements⟩ options.denyWarnings
      (statements.map (Statement.relocate f)) = .ok (e.relocate f) := by
    have hrun' := Emission.run_relocate f hrun
    change Emission.run options.denyWarnings {} _ = _ at hrun'
    rw [emission, hrun']
    simp only [Except.mapError, bind, Except.bind, Emission.unfinished?_relocate, hunfinished]
  let artifact' : Artifact := {
    code := (e.relocate f).code options
    diagnostics :=
      .summary source.name (Statement.laid .start statements).length "tokens"
        :: .summary source.name (statements.map (Statement.relocate f)).length "instructions"
        :: (e.relocate f).diagnostics }
  refine ⟨⟨source.name, Statement.canonical statements⟩, artifact', ?_, ?_,
    (Emission.code_relocate f e options).trans hcode.symm, ?_⟩
  · rw [canonical, htokens]
    simp only [bind, Except.bind, hstatements]
    rfl
  · rw [compile, htokens']
    simp only [bind, Except.bind, hstatements', hemission]
    rfl
  · simpa [Artifact.warnings, artifact', hdiagnostics, Diagnostic.summary,
      Diagnostic.isWarning] using Emission.warnings_relocate f e

end Source

/-- A program with a header over two lines, a comment, two statements in one line, and a warning. -/
private def spreadLoop : Source :=
  ⟨"spread", "main\x7bvar k=1;for var i=0;k+\n3;1\x7bprint(i) // shown\n var k=2;print(k)\x7d\x7d"⟩

/-- The canonical form has no comment and no header over two lines. -/
theorem spreadLoop_compile_canonical :
    ∃ artifact, spreadLoop.compile {} = .ok artifact ∧
      ∃ canonical artifact', spreadLoop.canonical = .ok canonical ∧
        canonical.compile {} = .ok artifact' ∧ artifact'.code = artifact.code ∧
        artifact'.warnings = artifact.warnings := by
  have hisOk : (spreadLoop.compile {}).isOk = true := by decide +kernel
  obtain ⟨artifact, hcompile⟩ := exists_eq_ok_of_isOk hisOk
  exact ⟨artifact, hcompile, Source.compile_canonical hcompile⟩

example : spreadLoop.canonical.toOption.map Source.text = some
    ("main\n\x7b\nvar k = 1\nfor var i = 0 ; k + 3 ; 1\n\x7b\nprint ( i )\nvar k = 2\n" ++
      "print ( k )\n\x7d\n\x7d\n") := by
  decide +kernel

end Sprout
