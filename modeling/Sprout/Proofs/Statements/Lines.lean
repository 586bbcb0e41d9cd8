import Sprout.Proofs.Canonical
import Sprout.Proofs.Lexing.Tiling
import Sprout.Proofs.Statements.Steps

namespace Sprout

namespace Token

/-- A token of a text stands in it behind what is in front of it, and what follows it in the text is
read as the tokens behind it. No token starts with a blank. -/
theorem exists_text_of_scan {p : Position} {text : List Char} {ts before after : List Token}
    {t : Token} (h : scan p text = .ok ts) (hts : ts = before ++ t :: after) (ht : t.kind ≠ .eof) :
    ∃ front rest, text = front ++ t.lexeme.toList ++ rest ∧ t.position = p.after front ∧
      scan (p.after (front ++ t.lexeme.toList)) rest = .ok after ∧
      ∃ c ∈ t.lexeme.toList.head?, isBlank c = false := by
  have hscanned := Scanned.of_scan h
  clear h
  induction hscanned generalizing before with
  | nil p =>
    rcases before with _ | ⟨_, _ | ⟨_, _⟩⟩ <;> cases hts
    exact absurd rfl ht
  | @blank p c _ _ _ _ ih =>
    obtain ⟨front, behind, rfl, hposition, hscan, hstart⟩ := ih hts
    exact ⟨c :: front, behind, rfl, hposition, hscan, hstart⟩
  | @token p c rest kind more others hblank _ hothers ih =>
    have htext : c :: rest = c :: rest.take more ++ rest.drop more := by
      rw [List.cons_append, List.take_append_drop]
    rw [htext]
    cases before with
    | nil =>
      cases hts
      exact ⟨[], rest.drop more, by simp, rfl, by simpa using hothers.scan_eq, c, by simp, hblank⟩
    | cons first before =>
      obtain ⟨front, behind, hrest, hposition, hscan, hstart⟩ := ih (List.cons.inj hts).2
      refine ⟨c :: rest.take more ++ front, behind, by rw [hrest]; simp, ?_, ?_, hstart⟩
      · rw [Position.after_append, hposition]
      · rwa [List.append_assoc, Position.after_append]

/-- A token behind which a statement goes on is an operator or a punctuation mark. -/
theorem Kind.isMark_of_continues {kind : Kind} (h : kind.continues = true) : kind.isMark = true := by
  cases kind <;> cases h <;> rfl

/-- No operator and no punctuation mark holds a blank. Of all that stands by itself, only texts and
characters may hold one. -/
theorem Standalone.isBlank_eq_false {t : Token} (h : t.Standalone) (hkind : t.kind.isMark = true) :
    ∀ d ∈ t.lexeme.toList, isBlank d = false := by
  obtain ⟨c, more, hlexeme, hblank, hfront⟩ := h
  rw [hlexeme, String.toList_ofList, List.forall_mem_cons]
  have hmark := mark_of_front hkind (hfront [] .nil)
  rw [List.append_nil, mark] at hmark
  refine ⟨hblank, ?_⟩
  split at hmark
  · rename_i pair hpair
    obtain ⟨d, hd, hsome⟩ := Option.bind_eq_some_iff.1 hpair
    have hlength : more.length = 1 := (Prod.mk.inj (Except.ok.inj hmark)).2.symm
    obtain ⟨d', rfl⟩ := List.length_eq_one_iff.1 hlength
    cases hd
    rw [List.forall_mem_singleton, Bool.eq_false_iff]
    intro hd
    rw [pairKind_blank hd] at hsome
    cases hsome
  · split at hmark
    · have hlength : more.length = 0 := (Prod.mk.inj (Except.ok.inj hmark)).2.symm
      simp [List.eq_nil_of_length_eq_zero hlength]
    · cases hmark

/-- An operator or a punctuation mark stands on one line. -/
theorem Standalone.lineFeed_notMem {t : Token} (h : t.Standalone) (hkind : t.kind.isMark = true) :
    '\n' ∉ t.lexeme.toList :=
  fun hfeed => absurd (h.isBlank_eq_false hkind '\n' hfeed) (by decide)

end Token

namespace Source

/-- Whether exactly `gap` stands between two tokens in the text of a source. -/
def Between (source : Source) (a b : Token) (gap : List Char) : Prop :=
  ∃ front back, source.text.toList = front ++ a.lexeme.toList ++ gap ++ b.lexeme.toList ++ back ∧
    a.position = .behind front ∧ b.position = .behind (front ++ a.lexeme.toList ++ gap)

variable {source : Source} {ts before after : List Token} {a b : Token} {gap : List Char}

/-- Between two tokens that stand next to each other, there is some gap. -/
theorem exists_between (h : source.tokens = .ok ts)
    (hrun : ts.filter Token.isSignificant = before ++ a :: b :: after) :
    ∃ gap, source.Between a b gap := by
  obtain ⟨front, rest, rfl, -, hrest⟩ := List.filter_eq_append_iff.1 hrun
  obtain ⟨skipped, rest, rfl, -, ha, hrest⟩ := List.filter_eq_cons_iff.1 hrest
  obtain ⟨skipped', rest, rfl, -, hb, -⟩ := List.filter_eq_cons_iff.1 hrest
  obtain ⟨front', text, htext, hposition, hscan, -⟩ :=
    Token.exists_text_of_scan h (List.append_assoc front skipped _).symm
      (Token.ne_eof_of_isSignificant ha)
  obtain ⟨gap, back, rfl, hposition', -⟩ :=
    Token.exists_text_of_scan hscan rfl (Token.ne_eof_of_isSignificant hb)
  refine ⟨gap, front', back, by simpa using htext, ?_, ?_⟩
  · rw [hposition, Position.start_after]
  · rw [hposition', Position.start_after, Position.after_behind]

/-- Where no line ends between two tokens, the second one starts as many lines further down as the
first one has line feeds. -/
theorem Between.line (h : source.Between a b gap) (hgap : '\n' ∉ gap) :
    b.position.line = a.position.line + a.lexeme.toList.count '\n' := by
  obtain ⟨front, back, -, ha, hb⟩ := h
  rw [ha, hb]
  simp only [Position.behind, List.count_append, List.count_eq_zero_of_not_mem hgap]
  omega

/-- Only the end of a line ends a statement, if what stands in front of it does not hold one itself. Of
two tokens that stand next to each other with no line feed in between, where neither is a brace or
a semicolon and the second one is no word that starts a statement, the second one is in the
statement of the first one exactly if they stand inside brackets or the first one holds no line
feed. -/
theorem share_statement_iff {source : Source} {ts before after : List Token} {a b : Token}
    {statements : List Statement} (htokens : source.tokens = .ok ts)
    (hgroup : Statement.group ts = .ok statements)
    (hrun : ts.filter Token.isSignificant = before ++ a :: b :: after)
    (ha : a.kind ≠ .openBrace ∧ a.kind ≠ .closeBrace ∧ a.kind ≠ .semicolon)
    (hb : b.kind ≠ .openBrace ∧ b.kind ≠ .closeBrace ∧ b.kind ≠ .semicolon)
    (hword : b.kind.startsStatement = false) :
    (∃ gap, source.Between a b gap) ∧ ∀ gap, source.Between a b gap → '\n' ∉ gap →
      ((∃ s ∈ statements, a ∈ s.tokens ∧ b ∈ s.tokens) ↔
        0 < Token.nesting 0 (before ++ [a]) ∨ '\n' ∉ a.lexeme.toList) := by
  refine ⟨exists_between htokens hrun, fun gap hgap hline => ?_⟩
  have hmem : ∀ t ∈ before ++ a :: b :: after, t ∈ ts ∧ t.isSignificant = true := by
    intro t ht
    rw [← hrun] at ht
    exact List.mem_filter.1 ht
  have hstandalone : ∀ t ∈ before ++ a :: b :: after, t.Standalone := by
    intro t ht
    obtain ⟨htoken, hsignificant⟩ := hmem t ht
    exact Token.standalone_of_isSignificant htokens htoken hsignificant
      (Statement.ne_unknown_of_group hgroup t htoken)
  have hnodup : (before ++ a :: b :: after).Nodup := by
    have hbefore := (Token.before_of_scan htokens).2.sublist (List.filter_sublist (p := Token.isSignificant))
    rw [hrun] at hbefore
    refine hbefore.imp_of_mem fun {t t'} ht _ hpair heq => hpair.position_ne ?_ (by rw [heq])
    obtain ⟨c, more, hlexeme, -⟩ := hstandalone t ht
    simp [hlexeme]
  have hgrouped := Statement.group_filter hgroup
  rw [hrun] at hgrouped
  rw [Statement.common_iff_of_group hgrouped hnodup ⟨(hmem a (by simp)).2, ha⟩
    ⟨(hmem b (by simp)).2, hb⟩ hword, hgap.line hline]
  have hlines : a.position.line + a.lexeme.toList.count '\n' = a.position.line ↔
      '\n' ∉ a.lexeme.toList := by
    rw [Nat.add_eq_left, List.count_eq_zero]
  have hcontinues : a.kind.continues = true → '\n' ∉ a.lexeme.toList := fun h =>
    (hstandalone a (by simp)).lineFeed_notMem (Token.Kind.isMark_of_continues h)
  rw [hlines]
  exact or_congr_right (or_iff_left_of_imp hcontinues)

/-- A text, a comment, and an operator behind both. -/
private def plainText : Source := ⟨"plain", "x = \"a\" /* b */ + y"⟩

/-- The operator goes on with the statement, though a comment and blanks stand in front of it: no
line ends there. -/
theorem plainText_shares :
    ∃ ts statements, plainText.tokens = .ok ts ∧ Statement.group ts = .ok statements ∧
      ∃ s ∈ statements, ⟨.string, "\"a\"", ⟨1, 5⟩⟩ ∈ s.tokens ∧
        ⟨.operator (.arithmetic .add), "+", ⟨1, 17⟩⟩ ∈ s.tokens := by
  have hseen : (do
      let ts ← plainText.tokens.toOption
      let statements ← (Statement.group ts).toOption
      some (ts.filter Token.isSignificant, statements.length)) =
      some ([⟨.identifier, "x", ⟨1, 1⟩⟩, ⟨.equal, "=", ⟨1, 3⟩⟩] ++ ⟨.string, "\"a\"", ⟨1, 5⟩⟩ ::
        ⟨.operator (.arithmetic .add), "+", ⟨1, 17⟩⟩ :: [⟨.identifier, "y", ⟨1, 19⟩⟩], 1) := by
    decide +kernel
  simp only [Option.bind_eq_bind, Option.bind_eq_some_iff] at hseen
  obtain ⟨ts, htokens, statements, hgroup, heq⟩ := hseen
  replace htokens := eq_ok_of_toOption htokens
  replace hgroup := eq_ok_of_toOption hgroup
  have hrun := (Prod.mk.inj (Option.some.inj heq)).1
  obtain ⟨-, hshare⟩ := share_statement_iff htokens hgroup hrun (by decide) (by decide) rfl
  have hbetween : plainText.Between ⟨.string, "\"a\"", ⟨1, 5⟩⟩
      ⟨.operator (.arithmetic .add), "+", ⟨1, 17⟩⟩ " /* b */ ".toList :=
    ⟨"x = ".toList, " y".toList, by decide +kernel, by decide +kernel, by decide +kernel⟩
  exact ⟨ts, statements, htokens, hgroup,
    (hshare _ hbetween (by decide +kernel)).2 (.inr (by decide +kernel))⟩

/-- The same text with a line feed in it. -/
private def brokenText : Source := ⟨"broken", "x = \"a\nb\" + y"⟩

/-- The operator starts a statement, though no line ends in front of it. The line ended inside the
text, and cutting compares where the two tokens start. -/
theorem brokenText_parts :
    ∃ ts statements before a b after gap, brokenText.tokens = .ok ts ∧
      Statement.group ts = .ok statements ∧
      ts.filter Token.isSignificant = before ++ a :: b :: after ∧
      (a.kind ≠ .openBrace ∧ a.kind ≠ .closeBrace ∧ a.kind ≠ .semicolon) ∧
      (b.kind ≠ .openBrace ∧ b.kind ≠ .closeBrace ∧ b.kind ≠ .semicolon) ∧
      b.kind.startsStatement = false ∧ Token.nesting 0 before = 0 ∧
      Token.nesting 0 (before ++ [a]) = 0 ∧ brokenText.Between a b gap ∧ '\n' ∉ gap ∧
      ¬ ∃ s ∈ statements, a ∈ s.tokens ∧ b ∈ s.tokens := by
  have hseen : (do
      let ts ← brokenText.tokens.toOption
      let statements ← (Statement.group ts).toOption
      some (ts.filter Token.isSignificant, statements.map Statement.tokens)) =
      some ([⟨.identifier, "x", ⟨1, 1⟩⟩, ⟨.equal, "=", ⟨1, 3⟩⟩] ++ ⟨.string, "\"a\nb\"", ⟨1, 5⟩⟩ ::
        ⟨.operator (.arithmetic .add), "+", ⟨2, 4⟩⟩ :: [⟨.identifier, "y", ⟨2, 6⟩⟩],
        [[⟨.identifier, "x", ⟨1, 1⟩⟩, ⟨.equal, "=", ⟨1, 3⟩⟩, ⟨.string, "\"a\nb\"", ⟨1, 5⟩⟩],
          [⟨.operator (.arithmetic .add), "+", ⟨2, 4⟩⟩, ⟨.identifier, "y", ⟨2, 6⟩⟩]]) := by
    decide +kernel
  simp only [Option.bind_eq_bind, Option.bind_eq_some_iff] at hseen
  obtain ⟨ts, htokens, statements, hgroup, heq⟩ := hseen
  obtain ⟨hrun, hstatements⟩ := Prod.mk.inj (Option.some.inj heq)
  refine ⟨ts, statements, _, _, _, _, [' '], eq_ok_of_toOption htokens, eq_ok_of_toOption hgroup, hrun,
    by decide, by decide, rfl, rfl, rfl, ?_, by decide, ?_⟩
  · exact ⟨"x = ".toList, " y".toList, by decide +kernel, by decide +kernel, by decide +kernel⟩
  · rintro ⟨s, hs, ha, hb⟩
    have hmem := List.mem_map_of_mem (f := Statement.tokens) hs
    rw [hstatements] at hmem
    simp only [List.mem_cons, List.not_mem_nil, or_false] at hmem
    rcases hmem with hmem | hmem <;> rw [hmem] at ha hb
    · exact absurd hb (by decide)
    · exact absurd ha (by decide)

end Source

end Sprout
