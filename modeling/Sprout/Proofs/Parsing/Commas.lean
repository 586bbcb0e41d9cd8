import Sprout.Proofs.Parsing.Completeness

namespace Sprout

namespace Token

/-- A token in front of the first of some pieces; if there are none, it is a piece of its own. A
comma inside an expression stands inside its brackets, so cutting at the others cuts between
expressions. -/
def prepend (t : Token) : List (List Token) → List (List Token)
  | [] => [[t]]
  | piece :: others => (t :: piece) :: others

/-- Tokens in front of the first of some pieces. -/
def attach (ts : List Token) (pieces : List (List Token)) : List (List Token) :=
  ts.foldr prepend pieces

/-- Tokens are put in front of the first piece all at once or one after the other. -/
theorem attach_append (ts us : List Token) (pieces : List (List Token)) :
    attach (ts ++ us) pieces = attach ts (attach us pieces) :=
  List.foldr_append

/-- Tokens are put in front of the first piece. -/
theorem attach_cons (ts piece : List Token) (others : List (List Token)) :
    attach ts (piece :: others) = (ts ++ piece) :: others := by
  induction ts with
  | nil => rfl
  | cons t ts ih =>
    change prepend t (attach ts (piece :: others)) = _
    rw [ih]
    rfl

/-- Where there is no piece, tokens make one of their own. -/
theorem attach_nil {ts : List Token} (h : ts ≠ []) : attach ts [] = [ts] := by
  rw [← List.dropLast_concat_getLast h, attach_append]
  exact attach_cons ts.dropLast [ts.getLast h] []

/-- A run that no comma cuts at a bracket depth: it goes to the front of the first piece behind it,
and the depth behind it is the same. -/
def Whole (depth : Nat) (ts : List Token) : Prop :=
  ∀ rest, pieces depth (ts ++ rest) = attach ts (pieces depth rest)

section Whole

variable {depth : Nat} {t opening closing : Token} {ts us : List Token}

/-- A token that is no comma, or stands inside brackets, belongs to the piece behind it. -/
theorem pieces_cons (h : t.kind ≠ .comma ∨ 0 < depth) (rest : List Token) :
    pieces depth (t :: rest) = prepend t (pieces (t.kind.depthAfter depth) rest) := by
  have hinside : (decide (t.kind = .comma) && decide (depth = 0)) = false := by
    rcases h with h | h
    · simp [h]
    · simp [Nat.ne_of_gt h]
  rw [pieces, if_neg (by simp [hinside])]
  cases pieces (t.kind.depthAfter depth) rest <;> rfl

/-- No tokens hold no comma. -/
theorem whole_nil (depth : Nat) : Whole depth [] := fun _ => rfl

/-- Runs that are never cut are not cut one behind the other. -/
theorem Whole.append (hts : Whole depth ts) (hus : Whole depth us) : Whole depth (ts ++ us) := by
  intro rest
  rw [List.append_assoc, hts, hus, attach_append]

/-- A token that is neither a bracket nor a comma is not cut. -/
theorem whole_of_kind {kind : Kind} (ht : t.kind = kind)
    (hkind : (kind = .comma || kind.isOpening || kind.isClosing) = false) : Whole depth [t] := by
  simp only [Bool.or_eq_false_iff, decide_eq_false_iff_not, ← ht] at hkind
  obtain ⟨⟨hcomma, hopening⟩, hclosing⟩ := hkind
  intro rest
  rw [List.singleton_append, pieces_cons (.inl hcomma), Kind.depthAfter, hopening, hclosing]
  rfl

/-- Neither is a comma inside brackets. -/
theorem whole_of_comma (ht : t.kind = .comma) (hdepth : 0 < depth) : Whole depth [t] := by
  intro rest
  rw [List.singleton_append, pieces_cons (.inr hdepth), ht]
  rfl

/-- A run that is never cut stays so with such a token in front of it. -/
theorem Whole.cons (ht : Whole depth [t]) (hts : Whole depth ts) : Whole depth (t :: ts) :=
  ht.append hts

/-- Commas inside brackets do not cut. -/
theorem Whole.bracketed (hopening : opening.kind.isOpening = true)
    (hclosing : closing.kind.isClosing = true) (h : Whole (depth + 1) ts) :
    Whole depth (opening :: (ts ++ [closing])) := by
  have hfirst : opening.kind ≠ .comma := by
    intro hkind
    rw [hkind] at hopening
    cases hopening
  have hlast : closing.kind ≠ .comma ∧ closing.kind.isOpening = false := by
    cases hkind : closing.kind <;> simp_all [Kind.isClosing, Kind.isOpening]
  intro rest
  rw [List.cons_append, pieces_cons (.inl hfirst), Kind.depthAfter, if_pos hopening,
    List.append_assoc, h, List.singleton_append, pieces_cons (.inl hlast.1), Kind.depthAfter, hlast.2,
    if_neg Bool.false_ne_true, if_pos hclosing, Nat.add_sub_cancel]
  change _ = prepend opening (attach (ts ++ [closing]) _)
  rw [attach_append]
  rfl

/-- A run that nothing cuts is its only piece. -/
theorem Whole.pieces_eq (h : Whole 0 ts) (hne : ts ≠ []) : splitCommas ts = [ts] := by
  have hpieces := h []
  rw [List.append_nil] at hpieces
  rw [splitCommas, hpieces]
  exact attach_nil hne

/-- A comma behind a run that nothing cuts ends its piece. -/
theorem Whole.pieces_append_cons {comma : Token} (h : Whole 0 ts) (hcomma : comma.kind = .comma)
    (us : List Token) : splitCommas (ts ++ comma :: us) = ts :: splitCommas us := by
  have hcut : pieces 0 (comma :: us) = [] :: pieces 0 us := by
    rw [pieces, if_pos (by simp [hcomma])]
  rw [splitCommas, h, hcut, attach_cons, List.append_nil]
  rfl

/-- A run is its only piece, or a comma ends its first one. -/
theorem pieces_cases (hne : ts ≠ []) (depth : Nat) :
    pieces depth ts = [ts] ∨ ∃ us comma vs, ts = us ++ comma :: vs ∧ comma.kind = .comma ∧
      pieces depth ts = us :: splitCommas vs := by
  induction ts generalizing depth with
  | nil => exact absurd rfl hne
  | cons t ts ih =>
    by_cases hcut : t.kind = .comma ∧ depth = 0
    · exact .inr ⟨[], t, ts, rfl, hcut.1, by rw [pieces, if_pos (by simp [hcut])]; rfl⟩
    · have hinside : t.kind ≠ .comma ∨ 0 < depth := by
        rcases Nat.eq_zero_or_pos depth with hzero | hpos
        · exact .inl fun hcomma => hcut ⟨hcomma, hzero⟩
        · exact .inr hpos
      rw [pieces_cons hinside]
      by_cases hnil : ts = []
      · exact .inl (by rw [hnil]; rfl)
      · rcases ih hnil (t.kind.depthAfter depth) with hwhole | ⟨us, comma, vs, rfl, hcomma, hpieces⟩
        · exact .inl (by rw [hwhole]; rfl)
        · exact .inr ⟨t :: us, comma, vs, rfl, hcomma, by rw [hpieces]; rfl⟩

end Whole

/-- Whether no comma ends a run. -/
def Closes (ts : List Token) : Prop :=
  ∀ t ∈ ts.getLast?, t.kind ≠ .comma

section Closes

variable {t : Token} {ts us : List Token}

/-- No tokens leave no bracket open. -/
theorem closes_nil : Closes [] := by
  intro t ht
  cases ht

/-- A token that is no bracket and no comma leaves none open. -/
theorem closes_singleton (ht : t.kind ≠ .comma) : Closes [t] := by
  intro t' ht'
  cases ht'
  exact ht

/-- Runs that close their brackets do so one behind the other. -/
theorem Closes.append (hts : Closes ts) (hus : Closes us) : Closes (ts ++ us) := by
  intro t ht
  rw [List.getLast?_append] at ht
  rcases Option.or_eq_some_iff.1 ht with ht | ⟨-, ht⟩
  · exact hus t ht
  · exact hts t ht

/-- A run that closes its brackets does so with such a token in front of it. -/
theorem Closes.cons (ht : t.kind ≠ .comma) (hts : Closes ts) : Closes (t :: ts) :=
  (closes_singleton ht).append hts

/-- What stands behind a part of a run ends the run. -/
theorem closes_append_iff (hne : us ≠ []) : Closes (ts ++ us) ↔ Closes us := by
  rw [Closes, Closes, List.getLast?_append, List.getLast?_eq_some_getLast hne, Option.some_or]

end Closes

end Token

namespace Expr

open Token

/-- How deep in brackets a phrase stands at least: expressions between commas stand inside those that
enclose them. -/
def Phrase.brackets : Phrase → Nat
  | .items _ | .list _ => 1
  | _ => 0

/-- No comma cuts a phrase: all of its own stand inside its brackets. By induction on the
derivation, with the depth at which the phrase starts. -/
theorem Derives.whole {p : Phrase} {n : Nat} {ts : List Token} (h : Derives p n ts) :
    ∀ depth, p.brackets ≤ depth → Whole depth ts := by
  induction h with
  | binary hop ht hleft hright ihleft ihright =>
    intro depth hdepth
    exact (ihleft depth hdepth).append (.cons (whole_of_kind ht rfl) (ihright depth hdepth))
  | tighter h ih | unary h ih | stepped h ih | primary h ih | items h ih =>
    exact fun depth hdepth => ih depth hdepth
  | plus ht h ih | minus ht h ih | not ht h ih | stepBefore ht h ih =>
    exact fun depth hdepth => .cons (whole_of_kind ht rfl) (ih depth hdepth)
  | stepAfter ht h ih => exact fun depth hdepth => (ih depth hdepth).append (whole_of_kind ht rfl)
  | number ht =>
    intro depth _
    rcases ht with ht | ht | ht <;> exact whole_of_kind ht rfl
  | bool ht | string ht | char ht hc | null ht => exact fun depth _ => whole_of_kind ht rfl
  | chain hname h ih => exact fun depth hdepth => .cons (whole_of_kind hname rfl) (ih depth hdepth)
  | type ht hsizes hargs ihsizes ihargs =>
    intro depth hdepth
    exact .cons (whole_of_kind ht rfl) ((ihsizes depth hdepth).append (ihargs depth hdepth))
  | parenthesised hopening hclosing h ih | array hopening hclosing h ih
  | arguments hopening hclosing h ih =>
    intro depth _
    exact .bracketed (by rw [hopening]; rfl) (by rw [hclosing]; rfl)
      (ih (depth + 1) (by simp [Phrase.brackets]))
  | link hargs hindexes hmember ihargs ihindexes ihmember =>
    intro depth hdepth
    exact (ihargs depth hdepth).append ((ihindexes depth hdepth).append (ihmember depth hdepth))
  | noArguments | noIndex | noMember | noDimension | noItems => exact fun depth _ => whole_nil depth
  | index hopening hclosing hinner h ihinner ih | sized hopening hclosing hinner h ihinner ih =>
    intro depth hdepth
    have hbracketed := Whole.bracketed (by rw [hopening]; rfl) (by rw [hclosing]; rfl)
      (ihinner (depth + 1) (by simp [Phrase.brackets]))
    simpa using hbracketed.append (ih depth hdepth)
  | unsized hopening hclosing h ih =>
    intro depth hdepth
    have hbracketed := Whole.bracketed (by rw [hopening]; rfl) (by rw [hclosing]; rfl)
      (whole_nil (depth + 1))
    simpa using hbracketed.append (ih depth hdepth)
  | member hpoint hname h ih =>
    intro depth hdepth
    exact .cons (whole_of_kind hpoint rfl) (.cons (whole_of_kind hname rfl) (ih depth hdepth))
  | last h ih => exact fun depth _ => ih depth (Nat.zero_le depth)
  | more hcomma hhead h ihhead ih =>
    intro depth hdepth
    exact (ihhead depth (Nat.zero_le depth)).append
      (.cons (whole_of_comma hcomma hdepth) (ih depth hdepth))

/-- No comma ends a phrase, by induction on the derivation: the last token of each rule is something
else, or ends a shorter phrase. -/
theorem Derives.closes {p : Phrase} {n : Nat} {ts : List Token} (h : Derives p n ts) :
    Closes ts := by
  induction h with
  | binary hop ht hleft hright ihleft ihright => exact ihleft.append (.cons (by simp [ht]) ihright)
  | tighter h ih | unary h ih | stepped h ih | primary h ih | items h ih | last h ih => exact ih
  | plus ht h ih | minus ht h ih | not ht h ih | stepBefore ht h ih | chain ht h ih =>
    exact .cons (by simp [ht]) ih
  | stepAfter ht h ih => exact ih.append (closes_singleton (by simp [ht]))
  | number ht => exact closes_singleton (by rcases ht with ht | ht | ht <;> simp [ht])
  | bool ht | string ht | char ht hc | null ht => exact closes_singleton (by simp [ht])
  | type ht hsizes hargs ihsizes ihargs => exact .cons (by simp [ht]) (ihsizes.append ihargs)
  | parenthesised hopening hclosing h ih | array hopening hclosing h ih
  | arguments hopening hclosing h ih =>
    exact .cons (by simp [hopening]) (ih.append (closes_singleton (by simp [hclosing])))
  | link hargs hindexes hmember ihargs ihindexes ihmember =>
    exact ihargs.append (ihindexes.append ihmember)
  | noArguments | noIndex | noMember | noDimension | noItems => exact closes_nil
  | index hopening hclosing hinner h ihinner ih | sized hopening hclosing hinner h ihinner ih =>
    exact .cons (by simp [hopening]) (ihinner.append (.cons (by simp [hclosing]) ih))
  | unsized hopening hclosing h ih =>
    exact .cons (by simp [hopening]) (.cons (by simp [hclosing]) ih)
  | member hpoint hname h ih => exact .cons (by simp [hpoint]) (.cons (by simp [hname]) ih)
  | @more _ _ comma _ _ ts us hcomma hhead h ihhead ih =>
    obtain ⟨t, rest, rfl, -⟩ := h.starts
    rw [← List.singleton_append, ← List.append_assoc]
    exact (closes_append_iff (by simp)).2 ih

section Runs

variable {ts : List Token}

/-- An expression takes at least one token. -/
theorem ne_nil_of_parse {e : Expr} (h : parse ts = .ok e) : ts ≠ [] := by
  rintro rfl
  cases h

/-- A run that is read as an expression is not cut by its commas. -/
theorem splitCommas_of_parse {e : Expr} (heof : ∀ t ∈ ts, t.kind ≠ .eof) (h : parse ts = .ok e) :
    splitCommas ts = [ts] := by
  obtain ⟨n, -, hderives⟩ := ((parse_iff_derives heof).1 e).1 h
  exact (hderives.whole 0 (Nat.zero_le 0)).pieces_eq (ne_nil_of_parse h)

/-- A run that is one expression is cut into one piece, which is that expression. -/
theorem mapM_parse_of_parse {e : Expr} (heof : ∀ t ∈ ts, t.kind ≠ .eof) (h : parse ts = .ok e) :
    (splitCommas ts).mapM parse = .ok [e] := by
  rw [splitCommas_of_parse heof h, List.mapM_cons, h]
  rfl

/-- A list of expressions is cut into the runs of its expressions. -/
theorem mapM_parse_of_derives {p : Phrase} {n : Nat} (h : Derives p n ts)
    (heof : ∀ t ∈ ts, t.kind ≠ .eof) (hn : n ≤ maxNesting + 1) :
    ∀ es, p = .list es → (splitCommas ts).mapM parse = .ok es := by
  induction h with
  | @last e n ts hlast _ =>
    rintro _ ⟨⟩
    have hparse := ((parse_iff_derives heof).1 e).2 ⟨n, by omega, hlast⟩
    rw [splitCommas_of_parse heof hparse, List.mapM_cons, hparse]
    rfl
  | @more e es comma m n ts us hcomma hhead _ _ ih =>
    rintro _ ⟨⟩
    rw [List.forall_mem_append, List.forall_mem_cons] at heof
    have hparse := ((parse_iff_derives heof.1).1 e).2 ⟨m, by omega, hhead⟩
    rw [(hhead.whole 0 (Nat.zero_le 0)).pieces_append_cons hcomma, List.mapM_cons, hparse,
      ih heof.2.2 (by omega) es rfl]
    rfl
  | _ => rintro _ ⟨⟩

/-- Reading a list at once, and cutting it at its commas to read the expressions one by one, give the
same. -/
theorem mapM_parse_of_parseList {es : List Expr} (heof : ∀ t ∈ ts, t.kind ≠ .eof)
    (h : parseList ts = .ok es) : (splitCommas ts).mapM parse = .ok es := by
  obtain ⟨n, hn, hderives⟩ := derives_of_parseList h
  rw [body_eq_self heof] at hderives
  exact mapM_parse_of_derives hderives heof hn es rfl

/-- Expressions that are read from the pieces of a run are a list by the grammar, unless the run ends
with a comma, which starts no piece. -/
theorem derives_of_mapM_parse {es : List Expr} (heof : ∀ t ∈ ts, t.kind ≠ .eof) (hne : ts ≠ [])
    (hcloses : Closes ts) (h : (splitCommas ts).mapM parse = .ok es) :
    ∃ n ≤ maxNesting + 1, Derives (.list es) n ts := by
  induction hlength : ts.length using Nat.strongRecOn generalizing ts es with
  | ind length ih =>
    rcases pieces_cases hne 0 with hwhole | ⟨us, comma, vs, rfl, hcomma, hpieces⟩
    · rw [splitCommas, hwhole, List.mapM_cons] at h
      obtain ⟨e, hparse, h⟩ := bind_eq_ok_iff.1 h
      cases h
      obtain ⟨n, hn, hderives⟩ := ((parse_iff_derives heof).1 e).1 hparse
      exact ⟨n + 1, by omega, hderives.last⟩
    · rw [splitCommas, hpieces, List.mapM_cons] at h
      obtain ⟨e, hparse, h⟩ := bind_eq_ok_iff.1 h
      obtain ⟨others, hothers, h⟩ := bind_eq_ok_iff.1 h
      cases h
      rw [List.forall_mem_append, List.forall_mem_cons] at heof
      -- A comma in front of nothing would end the run.
      have hvs : vs ≠ [] := by
        rintro rfl
        exact (closes_append_iff (by simp)).1 hcloses comma rfl hcomma
      have hrest : Closes vs := by
        rw [← List.singleton_append, ← List.append_assoc] at hcloses
        exact (closes_append_iff hvs).1 hcloses
      have hshorter : vs.length < length := by
        rw [← hlength, List.length_append, List.length_cons]
        omega
      obtain ⟨m, hm, hhead⟩ := ((parse_iff_derives heof.1).1 e).1 hparse
      obtain ⟨n, hn, htail⟩ := ih vs.length hshorter heof.2.2 hvs hrest hothers rfl
      exact ⟨max (m + 1) n, by omega, hhead.more hcomma htail⟩

/-- The two ways to read expressions between commas agree on every run. A run is read as a list just if
it is not empty, no comma ends it, and the pieces between its commas outside brackets are read one
by one as the expressions of the list, where brackets are counted without regard to their kind. -/
theorem parseList_iff_mapM_parse (heof : ∀ t ∈ ts, t.kind ≠ .eof) (es : List Expr) :
    parseList ts = .ok es ↔
      ts ≠ [] ∧ (∀ t ∈ ts.getLast?, t.kind ≠ .comma) ∧ (splitCommas ts).mapM parse = .ok es := by
  constructor
  · intro h
    obtain ⟨n, hn, hderives⟩ := derives_of_parseList h
    rw [body_eq_self heof] at hderives
    obtain ⟨t, rest, rfl, -⟩ := hderives.starts
    exact ⟨by simp, hderives.closes, mapM_parse_of_parseList heof h⟩
  · rintro ⟨hne, hcloses, h⟩
    obtain ⟨n, hn, hderives⟩ := derives_of_mapM_parse heof hne hcloses h
    rw [← body_eq_self heof] at hderives
    exact hderives.parseList.1 hn

/-- The call `f(a, b)`. -/
private def callRun : List Token :=
  [⟨.identifier, "f", ⟨1, 1⟩⟩, ⟨.openParen, "(", ⟨1, 2⟩⟩, ⟨.identifier, "a", ⟨1, 3⟩⟩,
    ⟨.comma, ",", ⟨1, 4⟩⟩, ⟨.identifier, "b", ⟨1, 6⟩⟩, ⟨.closeParen, ")", ⟨1, 7⟩⟩]

/-- The run `f(a, b), c`. -/
private def callAndNameRun : List Token :=
  callRun ++ [⟨.comma, ",", ⟨1, 8⟩⟩, ⟨.identifier, "c", ⟨1, 10⟩⟩]

/-- The comma inside the call does not cut `f(a, b), c`. -/
theorem parseList_callAndName :
    (∀ t ∈ callAndNameRun, t.kind ≠ .eof) ∧
      splitCommas callAndNameRun = [callRun, [⟨.identifier, "c", ⟨1, 10⟩⟩]] ∧
      parseList callAndNameRun = .ok
        [.call "f" [.ident "a" ⟨1, 3⟩, .ident "b" ⟨1, 6⟩] ⟨1, 1⟩, .ident "c" ⟨1, 10⟩] := by
  have heof : ∀ t ∈ callAndNameRun, t.kind ≠ .eof := by decide
  have hpieces : splitCommas callAndNameRun = [callRun, [⟨.identifier, "c", ⟨1, 10⟩⟩]] := by decide
  have hname : ∀ name : Token, name.kind = .identifier →
      Derives (.tier 0 (.ident name.lexeme name.position)) 1 [name] := fun name hkind =>
    .loosen (k := tierCount) (Nat.zero_le _)
      (.unary (.stepped (.primary (.chain hkind (.link .noArguments .noIndex .noMember)))))
  have hargs : Derives (.list [.ident "a" ⟨1, 3⟩, .ident "b" ⟨1, 6⟩]) 2
      [⟨.identifier, "a", ⟨1, 3⟩⟩, ⟨.comma, ",", ⟨1, 4⟩⟩, ⟨.identifier, "b", ⟨1, 6⟩⟩] :=
    .more rfl (hname ⟨.identifier, "a", ⟨1, 3⟩⟩ rfl) (hname ⟨.identifier, "b", ⟨1, 6⟩⟩ rfl).last
  have hprimary : Derives (.primary (.call "f" [.ident "a" ⟨1, 3⟩, .ident "b" ⟨1, 6⟩] ⟨1, 1⟩)) 2
      callRun :=
    .chain rfl (.link (.arguments rfl rfl hargs.items) .noIndex .noMember)
  have hcall : parse callRun = .ok (.call "f" [.ident "a" ⟨1, 3⟩, .ident "b" ⟨1, 6⟩] ⟨1, 1⟩) :=
    ((parse_iff_derives (by decide)).1 _).2
      ⟨2, by decide, .loosen (k := tierCount) (Nat.zero_le _) (.unary (.stepped (.primary hprimary)))⟩
  have hlast : parse [⟨.identifier, "c", ⟨1, 10⟩⟩] = .ok (.ident "c" ⟨1, 10⟩) :=
    ((parse_iff_derives (by decide)).1 _).2 ⟨1, by decide, hname ⟨.identifier, "c", ⟨1, 10⟩⟩ rfl⟩
  refine ⟨heof, hpieces, (parseList_iff_mapM_parse heof _).2 ⟨by decide, by decide, ?_⟩⟩
  rw [hpieces, List.mapM_cons, hcall, List.mapM_cons, hlast]
  rfl

end Runs

end Expr

end Sprout
