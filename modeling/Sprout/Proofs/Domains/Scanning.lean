import Sprout.Error
import Sprout.Proofs.Domains.Bytes
import Sprout.Proofs.Domains.Counting

namespace Sprout

open Token

namespace Bytes

variable {c : Char} {text : List Char} {n : Nat}

/-- A text cut in two behind its first `n` bytes. It cannot be cut inside a character, nor behind
its end; reading byte by byte never asks for such a cut. -/
def cut? : Nat → List Char → Option (List Char × List Char)
  | 0, text => some ([], text)
  | _ + 1, [] => none
  | n + 1, c :: text =>
    if n < (ofChar c).length - 1 then none
    else (cut? (n + 1 - (ofChar c).length) text).map fun (front, back) => (c :: front, back)

/-- Every character takes a byte at least, so cutting at a positive number of bytes makes a text
shorter. -/
theorem length_ofChar_pos (c : Char) : 0 < (ofChar c).length := by
  obtain ⟨b, bytes, htext, -⟩ := exists_ofText_cons c []
  rw [ofText_cons, ofText_nil, List.append_nil] at htext
  simp [htext]

/-- A text can be cut behind each of its characters. -/
theorem cut?_size (n : Nat) (text : List Char) :
    cut? (size n text) text = some (text.take n, text.drop n) := by
  induction text generalizing n with
  | nil => simp [size, cut?]
  | cons c text ih =>
    cases n with
    | zero => rfl
    | succ n =>
      obtain ⟨m, hm⟩ := Nat.exists_eq_add_one.2 (length_ofChar_pos c)
      rw [size_succ, hm, ← Nat.add_assoc, cut?, if_neg (by omega), hm,
        show size n text + m + 1 - (m + 1) = size n text by omega, ih]
      rfl

/-- The same behind a first character of one byte. -/
theorem cut?_cons (hc : isWide c = false) (n : Nat) (text : List Char) :
    cut? (size n text + 1) (c :: text) = some (c :: text.take n, text.drop n) := by
  have hcut := cut?_size (n + 1) (c :: text)
  rwa [size_succ, ofChar_of_not_isWide hc] at hcut

/-- What a cut leaves is no longer than the text. -/
theorem length_le_of_cut? {front back : List Char} (h : cut? n text = some (front, back)) :
    back.length ≤ text.length := by
  induction text generalizing n front with
  | nil => cases n <;> simp_all [cut?]
  | cons c text ih =>
    cases n with
    | zero =>
      cases h
      rfl
    | succ n =>
      rw [cut?] at h
      split at h
      · cases h
      · obtain ⟨⟨front, back⟩, hcut, heq⟩ := Option.map_eq_some_iff.1 h
        cases heq
        exact (ih hcut).trans (Nat.le_succ _)

/-- What a cut behind a first byte leaves is shorter than the text, which is what ends the scan. -/
theorem length_lt_of_cut? {front back : List Char} (h : cut? (n + 1) text = some (front, back)) :
    back.length < text.length := by
  cases text with
  | nil => cases h
  | cons c text =>
    rw [cut?] at h
    split at h
    · cases h
    · obtain ⟨⟨front, back⟩, hcut, heq⟩ := Option.map_eq_some_iff.1 h
      cases heq
      exact Nat.lt_succ_of_le (length_le_of_cut? hcut)

/-- The position behind a byte. Continuation bytes share the column of the lead byte before them. -/
def next (p : Position) (b : Char) : Position :=
  if b = '\n' then ⟨p.line + 1, 1⟩
  else if b.toNat / 64 = 2 then p
  else ⟨p.line, p.column + 1⟩

/-- A line feed is one byte, so no byte of a wide character is taken for one. -/
theorem ne_lineFeed (h : 128 ≤ c.toNat) : c ≠ '\n' := by
  rintro rfl
  exact absurd h (by decide)

/-- Continuation bytes move no position. -/
theorem next_continuation {others : List Char} (h : ∀ b ∈ others, 128 ≤ b.toNat ∧ b.toNat < 192)
    (p : Position) : others.foldl next p = p := by
  induction others with
  | nil => rfl
  | cons b others ih =>
    rw [List.forall_mem_cons] at h
    obtain ⟨⟨hlow, hhigh⟩, hothers⟩ := h
    rw [List.foldl_cons, next, if_neg (ne_lineFeed hlow), if_pos (by omega), ih hothers]

/-- Counting the bytes of a character is counting the character: the bytes behind the first one are
not counted. -/
theorem next_ofChar (p : Position) (c : Char) : (ofChar c).foldl next p = p.next c := by
  cases hc : isWide c with
  | false =>
    have hlt : c.toNat < 128 := by simpa [isWide] using hc
    rw [ofChar_of_not_isWide hc, List.foldl_cons, List.foldl_nil, next, Position.next,
      if_neg (show ¬ c.toNat / 64 = 2 by omega)]
  | true =>
    obtain ⟨lead, others, hchar, hlead, hothers⟩ := ofChar_of_isWide hc
    have hle : 128 ≤ c.toNat := by simpa [isWide] using hc
    rw [hchar, List.foldl_cons, next, if_neg (ne_lineFeed (by omega)), if_neg (by omega),
      next_continuation hothers, Position.next, if_neg (ne_lineFeed hle)]

/-- The position behind a byte, counted in 32 bits. -/
def next? (p : Position) (b : Char) : Option Position :=
  (next p b).counted?

/-- The position behind bytes, counted one by one. -/
def after? (p : Position) (bytes : List Char) : Option Position :=
  bytes.foldlM next? p

variable {p q : Position} {rest : List Char} {kind : Kind} {more width : Nat} {cause : Lexical}

/-- The bytes of two texts are counted one behind the other. -/
theorem after?_append (p : Position) (front back : List Char) :
    after? p (front ++ back) = (after? p front).bind (after? · back) := by
  rw [after?, List.foldlM_append]
  rfl

/-- Counting continuation bytes gets nowhere, and so does not get past 32 bits. -/
theorem after?_continuation {others : List Char}
    (h : ∀ b ∈ others, 128 ≤ b.toNat ∧ b.toNat < 192) (hp : p.Fits) : after? p others = some p := by
  induction others with
  | nil => rfl
  | cons b others ih =>
    rw [List.forall_mem_cons] at h
    obtain ⟨⟨hlow, hhigh⟩, hothers⟩ := h
    have hnext : next? p b = some p := by
      rw [next?, next, if_neg (ne_lineFeed hlow), if_pos (by omega)]
      exact if_pos hp
    rw [after?, List.foldlM_cons, hnext]
    exact ih hothers

/-- The bytes of a character are counted as the character is. -/
theorem after?_ofChar (p : Position) (c : Char) : after? p (ofChar c) = p.next? c := by
  have hchar := next_ofChar p c
  cases hc : isWide c with
  | false =>
    rw [ofChar_of_not_isWide hc, List.foldl_cons, List.foldl_nil] at hchar
    rw [ofChar_of_not_isWide hc, after?, List.foldlM_cons, next?, hchar, Position.next?]
    cases (p.next c).counted? <;> rfl
  | true =>
    obtain ⟨lead, others, hbytes, hlead, hothers⟩ := ofChar_of_isWide hc
    rw [hbytes, List.foldl_cons, next_continuation hothers] at hchar
    rw [hbytes, after?, List.foldlM_cons, next?, hchar, Position.next?]
    cases hcount : (p.next c).counted? with
    | none => rfl
    | some q =>
      obtain ⟨hq, rfl⟩ := Position.counted?_eq_some_iff.1 hcount
      exact after?_continuation hothers hq

/-- Counting bytes reaches the same position as counting characters. -/
theorem after?_ofText (hp : p.Fits) (text : List Char) : after? p (ofText text) = p.after? text := by
  induction text generalizing p with
  | nil => rfl
  | cons c text ih =>
    rw [ofText_cons, after?_append, after?_ofChar, Position.after?_cons]
    cases hnext : p.next? c with
    | none => rfl
    | some q =>
      obtain ⟨hq, rfl⟩ := Position.counted?_eq_some_iff.1 hnext
      exact ih hq

/-- The cause shown for what stands at the front of a text: a character that is unknown is shown as a
whole. -/
def shown (text : List Char) : Lexical → Lexical
  | .unknownCharacter _ => .unknownCharacter (text.head?.getD '?')
  | cause => cause

/-- The unknown character that is reported is the one at the front. The bytes of the text show it
whole, for the front is that of a character. -/
theorem shown_of_front {rest : List Char} {cause : Lexical} {width : Nat}
    (h : front c rest = .error (cause, width)) : shown (c :: rest) cause = cause := by
  have hmark : mark c rest = .error (cause, width) → shown (c :: rest) cause = cause := by
    intro h
    unfold mark at h
    repeat' split at h
    all_goals cases h
    rfl
  have hradix : radixNumber rest = .error (cause, width) → shown (c :: rest) cause = cause := by
    intro h
    unfold radixNumber at h
    dsimp only at h
    repeat' split at h
    all_goals cases h <;> rfl
  unfold front at h
  repeat' split at h
  all_goals first
    | exact hmark h
    | (cases hnumber : radixNumber rest <;> rw [hnumber] at h <;> cases h
       exact hradix hnumber)
    | cases h

/-- How many bytes have been read when a cause is found. An unknown character is only looked at. -/
def consumed : Lexical → Nat → Nat
  | .unknownCharacter _, _ => 0
  | _, width => width

/-- The tokens of a text that is read byte by byte, from `position` on. The bytes are counted as they
are read, also those of a number that turns out to be malformed. -/
def scan? (position : Position) (text : List Char) :
    Except (Option (Defect Lexical)) (List Token) :=
  match ofText text with
  | [] => .ok [⟨.eof, "", position⟩]
  | b :: bytes =>
    if isBlank b then
      match _ : cut? 1 text with
      | none => .error none
      | some (blank, rest) => do
        let behind ← demand (after? position (ofText blank))
        scan? behind rest
    else
      match front b bytes with
      | .error (cause, width) => do
        let _ ← demand (after? position ((b :: bytes).take (consumed cause width)))
        .error (some ⟨shown text cause, position, width⟩)
      | .ok (kind, more) =>
        match _ : cut? (more + 1) text with
        | none => .error none
        | some (lexeme, rest) => do
          let behind ← demand (after? position (ofText lexeme))
          let others ← scan? behind rest
          .ok (⟨kind, String.ofList lexeme, position⟩ :: others)
termination_by text.length
decreasing_by all_goals exact length_lt_of_cut? ‹_›

/-- A blank takes one byte. -/
theorem not_isBlank_of_isWide (h : isWide c = true) : isBlank c = false := by
  by_contra hblank
  rcases isBlank_cases (by simpa using hblank) with rfl | rfl | rfl | rfl <;> cases h

/-- At the end of a text stands the token for its end. -/
theorem scan?_nil (p : Position) : scan? p [] = .ok [⟨.eof, "", p⟩] := by
  rw [scan?]
  rfl

/-- A blank is cut off and counted. It is a single byte, so the cut falls between two characters. -/
theorem scan?_blank (hp : p.Fits) (hblank : isBlank c = true) (text : List Char) :
    scan? p (c :: text) = demand (p.next? c) >>= (scan? · text) := by
  have hnarrow : isWide c = false := by
    by_contra hwide
    rw [not_isBlank_of_isWide (by simpa using hwide)] at hblank
    cases hblank
  obtain ⟨b, bytes, hbytes, -, hfirst⟩ := exists_ofText_cons c text
  obtain ⟨rfl, rfl⟩ := hfirst hnarrow
  have hcut : cut? 1 (b :: text) = some ([b], text) := cut?_cons hnarrow 0 text
  rw [scan?, hbytes]
  dsimp only
  rw [if_pos hblank]
  split
  · rename_i hnone
    rw [hcut] at hnone
    cases hnone
  · rename_i blank rest hsome
    rw [hcut] at hsome
    cases hsome
    rw [after?_ofText hp, Position.after?_cons]
    cases p.next? b <;> rfl

/-- Where no token can be read, the bytes that have been read are counted. -/
theorem scan?_error (hblank : isBlank c = false) (hfront : front c rest = .error (cause, width)) :
    scan? p (c :: rest) =
      demand (after? p ((ofText (c :: rest)).take (consumed cause width))) >>= fun _ =>
        .error (some ⟨cause, p, width⟩) := by
  obtain ⟨b, bytes, hbytes, hwide, hnarrow⟩ := exists_ofText_cons c rest
  rw [scan?, hbytes]
  cases hc : isWide c with
  | true =>
    have hwideByte := hwide.trans hc
    rw [front_of_isWide hc] at hfront
    cases hfront
    simp only [not_isBlank_of_isWide hwideByte, Bool.false_eq_true, if_false,
      front_of_isWide hwideByte]
    rfl
  | false =>
    obtain ⟨rfl, rfl⟩ := hnarrow hc
    dsimp only
    rw [if_neg (by simp [hblank]), front_ofText hc, hfront]
    simp only [Except.map, shown_of_front hfront]

/-- A token is cut out of the text between two characters, and counted. Its length in bytes is that
of its characters together. -/
theorem scan?_token (hp : p.Fits) (hblank : isBlank c = false)
    (hfront : front c rest = .ok (kind, more)) :
    scan? p (c :: rest) = demand (p.after? (c :: rest.take more)) >>= fun q =>
      scan? q (rest.drop more) >>= fun others =>
        .ok (⟨kind, String.ofList (c :: rest.take more), p⟩ :: others) := by
  obtain ⟨b, bytes, hbytes, -, hnarrow⟩ := exists_ofText_cons c rest
  have hc : isWide c = false := by
    by_contra hwide
    rw [front_of_isWide (by simpa using hwide)] at hfront
    cases hfront
  obtain ⟨rfl, rfl⟩ := hnarrow hc
  have hcut := cut?_cons hc more rest
  rw [scan?, hbytes]
  dsimp only
  rw [if_neg (by simp [hblank]), front_ofText hc, hfront]
  simp only [Except.map]
  split
  · rename_i hnone
    rw [hnone] at hcut
    cases hcut
  · rename_i lexeme behind hsome
    rw [hsome] at hcut
    cases hcut
    rw [after?_ofText hp]

/-- Reading byte by byte finds the tokens that are read character by character, or it crashes. If it
comes to the end of the text, the whole text has been counted. -/
theorem scan?_below (hp : p.Fits) (text : List Char) :
    Below (scan? p text) ((scan p text).mapError some) ∧
      ∀ ts, scan? p text = .ok ts → p.after? text = some (p.after text) := by
  fun_induction scan p text with
  | case1 p =>
    rw [scan?_nil]
    exact ⟨.refl _, fun ts _ => rfl⟩
  | case2 p c rest hblank ih =>
    rw [scan?_blank hp hblank, Position.after?_cons]
    cases hnext : p.next? c with
    | none => exact ⟨.inl rfl, fun ts hts => by cases hts⟩
    | some q =>
      obtain ⟨hq, rfl⟩ := Position.counted?_eq_some_iff.1 hnext
      exact ih hq
  | case3 p c rest hblank cause width hfront =>
    rw [scan?_error (by simpa using hblank) hfront]
    cases after? p ((ofText (c :: rest)).take (consumed cause width)) with
    | none => exact ⟨.inl rfl, fun ts hts => by cases hts⟩
    | some q => exact ⟨.refl _, fun ts hts => by cases hts⟩
  | case4 p c rest hblank kind more hfront lexeme defect hdefect ih =>
    rw [scan?_token hp (by simpa using hblank) hfront]
    cases hafter : p.after? (c :: rest.take more) with
    | none => exact ⟨.inl rfl, fun ts hts => by cases hts⟩
    | some q =>
      obtain ⟨hq, rfl⟩ := Position.fits_of_after? hp hafter
      obtain ⟨hrest, hcounted⟩ := ih hq
      rw [hdefect] at hrest
      rw [demand_some_bind]
      rcases hrest with hcrash | hrest
      · rw [hcrash]
        exact ⟨.inl rfl, fun ts hts => by cases hts⟩
      · rw [hrest]
        exact ⟨.refl _, fun ts hts => by cases hts⟩
  | case5 p c rest hblank kind more hfront lexeme others hothers ih =>
    rw [scan?_token hp (by simpa using hblank) hfront]
    cases hafter : p.after? (c :: rest.take more) with
    | none => exact ⟨.inl rfl, fun ts hts => by cases hts⟩
    | some q =>
      obtain ⟨hq, rfl⟩ := Position.fits_of_after? hp hafter
      obtain ⟨hrest, hcounted⟩ := ih hq
      rw [hothers] at hrest
      rw [demand_some_bind]
      -- If the scan succeeds, the rest was counted too, and counting goes on where the token ends.
      refine ⟨hrest.bind fun _ => .refl _, fun ts hts => ?_⟩
      obtain ⟨others', hothers', -⟩ := bind_eq_ok_iff.1 hts
      have htext : c :: rest = lexeme ++ rest.drop more := by
        rw [List.cons_append, List.take_append_drop]
      rw [htext, Position.after?_append, hafter, Position.after_append]
      exact hcounted _ hothers'

/-- Reading byte by byte crashes nowhere if the whole text can be counted, by induction along the
scan: behind each token the rest of the text can be counted from where it ends. -/
theorem scan?_eq (hp : p.Fits) (h : p.after? text = some q) :
    scan? p text = (scan p text).mapError some := by
  fun_induction scan p text with
  | case1 p =>
    rw [scan?_nil]
    rfl
  | case2 p c rest hblank ih =>
    rw [Position.after?_cons] at h
    obtain ⟨r, hnext, h⟩ := Option.bind_eq_some_iff.1 h
    rw [scan?_blank hp hblank, hnext]
    obtain ⟨hr, rfl⟩ := Position.counted?_eq_some_iff.1 hnext
    exact ih hr h
  | case3 p c rest hblank cause width hfront =>
    -- what has been read of a malformed number is a part of the text
    rw [← after?_ofText hp, ← List.take_append_drop (consumed cause width) (ofText (c :: rest)),
      after?_append] at h
    obtain ⟨r, hread, -⟩ := Option.bind_eq_some_iff.1 h
    rw [scan?_error (by simpa using hblank) hfront, hread]
    rfl
  | case4 p c rest hblank kind more hfront lexeme defect hdefect ih =>
    obtain ⟨r, hlexeme, h⟩ := Position.exists_of_after?_cons more h
    rw [scan?_token hp (by simpa using hblank) hfront, hlexeme]
    obtain ⟨hr, rfl⟩ := Position.fits_of_after? hp hlexeme
    rw [demand_some_bind, ih hr h, hdefect]
    rfl
  | case5 p c rest hblank kind more hfront lexeme others hothers ih =>
    obtain ⟨r, hlexeme, h⟩ := Position.exists_of_after?_cons more h
    rw [scan?_token hp (by simpa using hblank) hfront, hlexeme]
    obtain ⟨hr, rfl⟩ := Position.fits_of_after? hp hlexeme
    rw [demand_some_bind, ih hr h, hothers]
    rfl

end Bytes

namespace Source

variable {source : Source} {ts : List Token}

/-- The tokens of a source, cut out of its bytes and counted in 32 bits. -/
def tokens? (source : Source) : Except (Option CompileError) (List Token) :=
  (Bytes.scan? .start source.text.toList).mapError (Option.map (.lexical source))

/-- The tokens of a source are found, or finding them crashes. -/
theorem tokens?_below (source : Source) :
    Below source.tokens? ((source.tokens.mapError (.lexical source)).mapError some) := by
  have hscan := (Bytes.scan?_below Position.fits_start source.text.toList).1.mapError
    (CompileError.lexical source)
  have hmap : (source.tokens.mapError (.lexical source)).mapError some =
      ((scan .start source.text.toList).mapError some).mapError
        (Option.map (CompileError.lexical source)) := by
    rw [tokens]
    cases scan .start source.text.toList <;> rfl
  rw [hmap]
  exact hscan

/-- Where the tokens are found, every place of the text fits 32 bits. -/
theorem fits_of_tokens? (h : source.tokens? = .ok ts) : source.Fits := by
  have hscan : Bytes.scan? .start source.text.toList = .ok ts := by
    unfold tokens? at h
    cases hscan : Bytes.scan? .start source.text.toList <;> rw [hscan] at h <;> cases h
    rfl
  have hcounted := (Bytes.scan?_below Position.fits_start source.text.toList).2 ts hscan
  intro front back htext
  rw [← Position.start_after]
  exact (Position.after?_eq_some Position.fits_start hcounted).2 front back htext

/-- The tokens of a text whose places fit 32 bits are found without a crash. -/
theorem tokens?_eq (hfits : source.Fits) :
    source.tokens? = (source.tokens.mapError (.lexical source)).mapError some := by
  have hcounted : Position.start.after? source.text.toList = some _ :=
    Position.after?_eq fun front back htext => by
      rw [Position.start_after]
      exact hfits front back htext
  rw [tokens?, Bytes.scan?_eq Position.fits_start hcounted, tokens, mapError_mapError,
    mapError_mapError]
  rfl

/-- Lexing loses nothing and knows where everything stands. If the tokens of a source are found, its
text is tiled by them and by blanks, up to the token for its end. Each of them, the last one
included, stands at the line and the column that the text before it counts, and both fit the 32 bits
that they are counted in. -/
theorem tokens_tile (h : source.tokens? = .ok ts) :
    ∃ gap tiles, Token.Tiling [] source.text.toList gap tiles ∧
      ts = tiles.map Prod.fst ++ [⟨.eof, "", .behind source.text.toList⟩] ∧
      ∀ t ∈ ts, t.position.Fits := by
  have hfits := fits_of_tokens? h
  have htokens : source.tokens = .ok ts :=
    mapError_eq_ok_iff.1 ((tokens?_below source).eq_of_ok h)
  have hscan : scan (.behind []) source.text.toList = .ok ts := htokens
  obtain ⟨gap, tiles, htiling, rfl⟩ := exists_tiling_of_scan hscan
  refine ⟨gap, tiles, htiling, rfl, fun t ht => ?_⟩
  rcases List.mem_append.1 ht with htile | hend
  · obtain ⟨⟨t, behind⟩, hmem, rfl⟩ := List.mem_map.1 htile
    obtain ⟨front, back, rfl⟩ := List.append_of_mem hmem
    have htext := htiling.text
    rw [Token.tiled, List.flatMap_append, ← List.append_assoc] at htext
    rw [(htiling.tile front t behind back rfl).position]
    exact hfits _ _ htext
  · rw [List.mem_singleton.1 hend]
    exact hfits _ [] (List.append_nil _).symm

/-- Blanks of every kind, characters of several bytes, an escape, and a quote without its end. -/
private def openQuote : Source :=
  ⟨"quote", "\t x:=\"\\é\n→\"\r\n/*ü\n*/ y\n'z\n"⟩

/-- The token at the open quote is the last one, and nothing stands behind it. -/
theorem openQuote_tile :
    ∃ ts gap tiles, openQuote.tokens? = .ok ts ∧
      ts.map Token.kind = [.identifier, .colon, .equal, .string, .comment, .identifier, .unknown, .eof] ∧
      Token.Tiling [] openQuote.text.toList gap tiles ∧
      ts = tiles.map Prod.fst ++ [⟨.eof, "", .behind openQuote.text.toList⟩] ∧
      ∀ t ∈ ts, t.position.Fits := by
  have hfits : openQuote.Fits := by
    have hlength : openQuote.text.length + 1 < 2 ^ 32 := by decide +kernel
    exact fits_of_length (by omega) (by omega)
  have hseen : openQuote.tokens.toOption.map (List.map Token.kind) =
      some [.identifier, .colon, .equal, .string, .comment, .identifier, .unknown, .eof] := by
    decide +kernel
  obtain ⟨ts, htokens, hkinds⟩ := Option.map_eq_some_iff.1 hseen
  have hfound : openQuote.tokens? = .ok ts := by
    rw [tokens?_eq hfits, eq_ok_of_toOption htokens]
    rfl
  obtain ⟨gap, tiles, htile, heq, hpositions⟩ := tokens_tile hfound
  exact ⟨ts, gap, tiles, hfound, hkinds, htile, heq, hpositions⟩

end Source

end Sprout
