import Sprout.Proofs.Lexing.Layout
import Sprout.Proofs.Outcome

namespace Sprout

namespace Position

/-- The position behind a text: its line feeds count the lines, and the characters behind the last
of them the columns. -/
def behind (before : List Char) : Position :=
  ⟨1 + before.count '\n', 1 + (before.reverse.takeWhile (· ≠ '\n')).length⟩

/-- Counting a character is counting it as the last one of what stands before. -/
theorem next_behind (before : List Char) (c : Char) :
    (behind before).next c = behind (before ++ [c]) := by
  unfold behind next
  by_cases hc : c = '\n'
  · simp [hc, Nat.add_assoc]
  · simp [hc, Nat.add_comm]

/-- Counting from character to character counts what the text holds. -/
theorem after_behind (before text : List Char) :
    (behind before).after text = behind (before ++ text) := by
  induction text generalizing before with
  | nil => simp
  | cons c text ih => rw [after_cons, next_behind, ih, List.append_assoc, List.singleton_append]

/-- Counting starts at the first line and column. -/
theorem start_after (text : List Char) : start.after text = behind text := by
  have hstart : start = behind [] := rfl
  rw [hstart, after_behind, List.nil_append]

end Position

namespace Token

/-- Whether a kind is one of a token that has its end: not of the end of the text, nor of what is
left open there. -/
def Kind.IsEnded (kind : Kind) : Prop :=
  kind ≠ .eof ∧ kind ≠ .unknown

/-- A word has its end. -/
theorem Kind.isEnded_of_isWord {kind : Kind} (h : kind.isWord = true) : kind.IsEnded := by
  constructor <;> rintro rfl <;> cases h

/-- A number has its end. -/
theorem Kind.isEnded_of_isNumber {kind : Kind} (h : kind.isNumber = true) : kind.IsEnded := by
  constructor <;> rintro rfl <;> cases h

/-- A mark has its end. -/
theorem Kind.isEnded_of_isMark {kind : Kind} (h : kind.isMark = true) : kind.IsEnded := by
  constructor <;> rintro rfl <;> cases h

/-- What stands at the front of a text has its end, or takes the text to its end. -/
theorem front_cases {c : Char} {rest : List Char} {kind : Kind} {more : Nat}
    (h : front c rest = .ok (kind, more)) :
    kind.IsEnded ∨ kind = .unknown ∧ more = rest.length := by
  cases Front.of_front h with
  | word hstart hlength hkind => exact .inl (hkind ▸ Kind.isEnded_of_isWord (isWord_wordKind _))
  | number hkind => exact .inl (Kind.isEnded_of_isNumber hkind)
  | comment hslash hkind => exact .inl (by simp [hkind, Kind.IsEnded])
  | quoted hkind => exact .inl (by rcases hkind with rfl | rfl <;> simp [Kind.IsEnded])
  | unended hkind hlength => exact .inr ⟨hkind, hlength⟩
  | mark hmark => exact .inl (Kind.isEnded_of_isMark (isMark_of_mark hmark))

/-- The text of tokens, each with the gap behind it. -/
def tiled (tiles : List (Token × List Char)) : List Char :=
  tiles.flatMap fun tile => tile.1.lexeme.toList ++ tile.2

/-- How a token stands between the text before it, the gap behind it, and the tokens after it. -/
structure Tile (before : List Char) (t : Token) (gap : List Char)
    (after : List (Token × List Char)) : Prop where
  lexeme : t.lexeme ≠ ""
  kind : t.kind ≠ .eof
  position : t.position = .behind before
  blank : ∀ c ∈ gap, isBlank c = true
  unknown : t.kind = .unknown → gap = [] ∧ after = []

/-- A text that stands behind `before`, cut into a gap and tokens, each with the gap behind it. -/
structure Tiling (before text gap : List Char) (tiles : List (Token × List Char)) : Prop where
  text : text = gap ++ tiled tiles
  blank : ∀ c ∈ gap, isBlank c = true
  tile : ∀ front t gap' back, tiles = front ++ (t, gap') :: back →
    Tile (before ++ gap ++ tiled front) t gap' back

variable {before text gap : List Char} {tiles : List (Token × List Char)}

/-- No text is tiled by no tokens. -/
theorem Tiling.nil : Tiling before [] [] [] :=
  ⟨rfl, by simp, by simp⟩

/-- No text has no other tiling. -/
theorem Tiling.eq_nil (h : Tiling before [] gap tiles) : gap = [] ∧ tiles = [] := by
  obtain ⟨hgap, htiled⟩ := List.append_eq_nil_iff.1 h.text.symm
  refine ⟨hgap, ?_⟩
  cases tiles with
  | nil => rfl
  | cons tile tiles =>
    have hlexeme := (h.tile [] tile.1 tile.2 tiles rfl).lexeme
    simp [tiled, hlexeme] at htiled

/-- A blank belongs to the gap in front of the first token. -/
theorem Tiling.blanks {c : Char} (hblank : isBlank c = true)
    (h : Tiling (before ++ [c]) text gap tiles) : Tiling before (c :: text) (c :: gap) tiles := by
  refine ⟨by rw [h.text, List.cons_append], List.forall_mem_cons.2 ⟨hblank, h.blank⟩, ?_⟩
  intro front t gap' back heq
  simpa using h.tile front t gap' back heq

/-- A token that stands where the text before it counts to is the first tile. One without its end is
the last one too. -/
theorem Tiling.token {t : Token} (hlexeme : t.lexeme ≠ "") (hkind : t.kind ≠ .eof)
    (hposition : t.position = .behind before) (hunknown : t.kind = .unknown → text = [])
    (h : Tiling (before ++ t.lexeme.toList) text gap tiles) :
    Tiling before (t.lexeme.toList ++ text) [] ((t, gap) :: tiles) := by
  refine ⟨by rw [h.text]; simp [tiled], by simp, ?_⟩
  rintro front t' gap' back heq
  cases front with
  | nil =>
    cases heq
    refine ⟨hlexeme, hkind, by simpa [tiled] using hposition, h.blank, fun hopen => ?_⟩
    rw [hunknown hopen] at h
    exact h.eq_nil
  | cons first front =>
    cases heq
    simpa [tiled] using h.tile front t' gap' back rfl

/-- The tokens of a text tile it, and the one for its end stands behind it. A token that lacks its
end takes the whole rest of the text. -/
theorem exists_tiling_of_scan {ts : List Token} (h : scan (.behind before) text = .ok ts) :
    ∃ gap tiles, Tiling before text gap tiles ∧
      ts = tiles.map Prod.fst ++ [⟨.eof, "", .behind (before ++ text)⟩] := by
  generalize hp : Position.behind before = p at h
  have hscanned := Scanned.of_scan h
  clear h
  induction hscanned generalizing before with
  | nil p => exact ⟨[], [], .nil, by simp [hp]⟩
  | @blank p c rest ts hblank _ ih =>
    have hnext : Position.behind (before ++ [c]) = p.next c := by
      rw [← hp, Position.next_behind]
    obtain ⟨gap, tiles, htiling, rfl⟩ := ih hnext
    exact ⟨c :: gap, tiles, htiling.blanks hblank, by simp⟩
  | @token p c rest kind more others _ hfront _ ih =>
    generalize hlexeme : c :: rest.take more = lexeme at ih ⊢
    have htext : c :: rest = lexeme ++ rest.drop more := by
      rw [← hlexeme, List.cons_append, List.take_append_drop]
    have hafter : Position.behind (before ++ lexeme) = p.after lexeme := by
      rw [← hp, Position.after_behind]
    obtain ⟨gap, tiles, htiling, rfl⟩ := ih hafter
    have hkind : kind ≠ .eof := by
      rcases front_cases hfront with hended | ⟨rfl, -⟩
      · exact hended.1
      · simp
    have hopen : kind = .unknown → rest.drop more = [] := by
      rintro rfl
      rcases front_cases hfront with hended | ⟨-, rfl⟩
      · exact absurd rfl hended.2
      · exact List.drop_length
    have htile := Tiling.token (t := ⟨kind, String.ofList lexeme, p⟩) (by simp [← hlexeme]) hkind
      hp.symm hopen (by rwa [String.toList_ofList])
    rw [String.toList_ofList, ← htext] at htile
    exact ⟨[], _, htile, by simp [htext]⟩

end Token

end Sprout
