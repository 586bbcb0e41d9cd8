import Sprout.Proofs.Arguments.Texts

namespace Sprout.Target

/-- A name without its escape. Escaped names can be read back, so different names stay different. -/
def unescaped (text : String) : String :=
  if "_u".toList.isPrefixOf text.toList then String.ofList (text.toList.drop 2) else text

/-- An escaped name can be read back. -/
theorem unescaped_name (text : String) : unescaped (name text) = text := by
  unfold name
  split
  · simp [unescaped]
  · rename_i hplain
    have hstart : text.toList.head? ≠ some '_' := fun hstart => hplain (by simp [hstart])
    unfold unescaped
    cases htext : text.toList with
    | nil => rfl
    | cons c more =>
      rw [htext, List.head?_cons, ne_eq, Option.some.injEq] at hstart
      have hne : ('_' == c) = false := by simpa using Ne.symm hstart
      simp [List.isPrefixOf, hne]

/-- Different names stay different. -/
theorem name_injective : Function.Injective name :=
  Function.LeftInverse.injective unescaped_name

/-- What a generated name starts with, if that is an underscore. -/
theorem name_cases (text : String) :
    name text = "_u" ++ text ∨ name text = text ∧ text.toList.head? ≠ some '_' ∧ text ∉ reserved := by
  unfold name
  split
  · exact .inl rfl
  · rename_i hplain
    exact .inr ⟨rfl, by simpa using hplain⟩

/-- What is written for a name is no reserved word. -/
theorem name_not_mem_reserved (text : String) : name text ∉ reserved := by
  rcases name_cases text with hescaped | ⟨hsame, -, hfree⟩
  · have hnone : ∀ word ∈ reserved, word.toList.head? ≠ some '_' := by decide
    intro hmem
    refine hnone _ hmem ?_
    simp [hescaped]
  · rwa [hsame]

/-- No name takes the place of a temporary. -/
theorem not_temporary_prefix (text : String) : ¬ "_t".toList <+: (name text).toList := by
  rintro ⟨more, hmore⟩
  rcases name_cases text with hescaped | ⟨hsame, hstart, -⟩
  · simp [hescaped] at hmore
  · rw [hsame] at hmore
    rw [← hmore] at hstart
    exact hstart rfl

/-- Whether a word stands in a text, outside quotes, with no part of a name beside it. A text in
which every underscore outside quotes goes on with a word, or starts an escape, mentions no
temporary. -/
def Mentions (word text : List Char) : Prop :=
  ∃ front back, bare .plain text = front ++ (word ++ back) ∧
    front.getLast?.any Token.isNamePart = false ∧ back.head?.any Token.isNamePart = false

/-- Whether every underscore of a text goes on with a word or starts an escape; `inside` says whether
the text itself goes on with a word. -/
def spares (inside : Bool) : List Char → Bool
  | [] => true
  | c :: rest => (c ≠ '_' || inside || rest.head? = some 'u') && spares (Token.isNamePart c) rest

/-- A text that ends outside quotes, and outside of them leaves the names of temporaries free. -/
structure IsSparing (text : List Char) : Prop where
  ended : Zone.plain.behind text = .plain
  bare : spares false (bare .plain text) = true

section Sparing

variable {text more front back : List Char} {inside : Bool} {quote : Char}

/-- A text that mentions no temporary at the start of a word mentions none inside one. -/
theorem spares_mono (h : spares false text = true) : spares inside text = true := by
  cases text with
  | nil => rfl
  | cons c rest =>
    simp only [spares, Bool.or_false, Bool.and_eq_true, Bool.or_eq_true] at h ⊢
    exact ⟨h.1.imp .inl id, h.2⟩

/-- Two texts that mention no temporary mention none one behind the other. -/
theorem spares_append (h : spares inside text = true) (hmore : spares false more = true) :
    spares inside (text ++ more) = true := by
  induction text generalizing inside with
  | nil => exact spares_mono hmore
  | cons c rest ih =>
    simp only [List.cons_append, spares, Bool.and_eq_true] at h ⊢
    refine ⟨?_, ih h.2⟩
    cases rest with
    | nil =>
      have hfirst : (decide (c ≠ '_') || inside) = true := by simpa using h.1
      rw [hfirst, Bool.true_or]
    | cons => exact h.1

/-- An underscore goes on with a word or starts an escape, wherever it stands. -/
theorem eq_of_spares (h : spares inside (front ++ '_' :: back) = true) :
    front.getLast?.elim inside Token.isNamePart = true ∨ back.head? = some 'u' := by
  induction front generalizing inside with
  | nil => simpa [spares] using (Bool.and_eq_true_iff.1 h).1
  | cons c front ih =>
    have hrest := ih (Bool.and_eq_true_iff.1 h).2
    cases front with
    | nil => exact hrest
    | cons d front =>
      obtain ⟨last, hlast⟩ := Option.isSome_iff_exists.1
        (List.getLast?_isSome.2 (List.cons_ne_nil d front))
      rw [hlast] at hrest
      rw [List.getLast?_cons_cons, hlast]
      exact hrest

/-- The name of a temporary is not mentioned. -/
theorem IsSparing.not_mentions (h : IsSparing text) : ¬ Mentions temporary.toList text := by
  rintro ⟨front, back, htext, hfront, -⟩
  -- The underscore of the temporary neither goes on with a word nor starts an escape.
  have hspares := h.bare
  rw [htext] at hspares
  rcases eq_of_spares hspares with hinside | hescape
  · cases hlast : front.getLast? with
    | none => simp [hlast] at hinside
    | some c => simp_all
  · cases hescape

/-- What stands outside quotes is found piece by piece. -/
theorem bare_append (zone : Zone) (text more : List Char) :
    Target.bare zone (text ++ more) = Target.bare zone text ++ Target.bare (zone.behind text) more := by
  induction text generalizing zone with
  | nil => rfl
  | cons c text ih =>
    simp only [List.cons_append, Target.bare, Zone.behind, List.foldl_cons]
    split
    · rw [ih, List.cons_append]
      rfl
    · exact ih _

/-- Two texts that mention no temporary mention none one behind the other, quotes aside. -/
theorem IsSparing.append (h : IsSparing text) (hmore : IsSparing more) : IsSparing (text ++ more) := by
  constructor
  · rw [Zone.behind, List.foldl_append]
    exact (congrArg (List.foldl Zone.next · more) h.ended).trans hmore.ended
  · rw [bare_append, h.ended]
    exact spares_append h.bare hmore.bare

/-- Whether a character is no quote. -/
def isUnquoted (c : Char) : Bool :=
  c ≠ '"' && c ≠ '\''

/-- Outside quotes, a text without quotes is read as it is. -/
theorem plain_of_isUnquoted (h : text.all isUnquoted = true) :
    Zone.plain.behind text = .plain ∧ Target.bare .plain text = text := by
  induction text with
  | nil => exact ⟨rfl, rfl⟩
  | cons c rest ih =>
    rw [List.all_cons, Bool.and_eq_true] at h
    obtain ⟨hended, hbare⟩ := ih h.2
    have hnext : Zone.plain.next c = .plain := by
      have hc := h.1
      simp only [isUnquoted, Bool.and_eq_true, decide_eq_true_eq] at hc
      simp [Zone.next, hc]
    rw [Zone.behind, List.foldl_cons, hnext, Target.bare, if_pos rfl, hnext]
    exact ⟨hended, congrArg _ hbare⟩

/-- A text without quotes mentions no temporary if its words do not. -/
theorem IsSparing.of_isUnquoted (h : (text.all isUnquoted && spares false text) = true) :
    IsSparing text := by
  rw [Bool.and_eq_true] at h
  obtain ⟨hended, hbare⟩ := plain_of_isUnquoted h.1
  exact ⟨hended, hbare.symm ▸ h.2⟩

/-- No text mentions nothing. -/
theorem IsSparing.nil : IsSparing [] := ⟨rfl, rfl⟩

/-- What goes on with a word spares every name. -/
theorem spares_of_isNamePart (h : ∀ c ∈ text, Token.isNamePart c = true) : spares true text = true := by
  induction text with
  | nil => rfl
  | cons c rest ih =>
    rw [List.forall_mem_cons] at h
    rw [spares, h.1, ih h.2]
    simp

/-- A name has no quotes. -/
theorem isUnquoted_of_isNamePart {c : Char} (h : Token.isNamePart c = true) : isUnquoted c = true := by
  have hdouble : c ≠ '"' := by rintro rfl; cases h
  have hsingle : c ≠ '\'' := by rintro rfl; cases h
  simp [isUnquoted, hdouble, hsingle]

/-- A generated name is none of a temporary: if it starts with an underscore, it starts with the
escape. -/
theorem isSparing_name {name : String} (h : Token.IsName name) :
    IsSparing (Target.name name).toList := by
  have hparts := Effect.isNamePart_targetName h
  refine .of_isUnquoted ?_
  rw [Bool.and_eq_true, List.all_eq_true]
  refine ⟨fun c hc => isUnquoted_of_isNamePart (hparts c hc), ?_⟩
  cases htext : (Target.name name).toList with
  | nil => rfl
  | cons c rest =>
    rw [htext] at hparts
    have hrest := spares_of_isNamePart (List.forall_mem_cons.1 hparts).2
    have hfirst : c = '_' → rest.head? = some 'u' := by
      rintro rfl
      rcases name_cases name with hescaped | ⟨hsame, hstart, -⟩
      · rw [hescaped, String.toList_append] at htext
        cases htext
        rfl
      · rw [hsame] at htext
        exact absurd (by rw [htext]; rfl) hstart
    rw [spares, (List.forall_mem_cons.1 hparts).1, hrest, Bool.and_true]
    by_cases hc : c = '_'
    · simp [hfirst hc]
    · simp [hc]

/-- A number has no underscore. -/
theorem isSparing_number (number : Number) : IsSparing number.target.toList := by
  have hnumeral := List.all_eq_true.1 (all_numeral_number number)
  generalize number.target.toList = text at hnumeral
  have hne : ∀ c ∈ text, c ≠ '_' ∧ c ≠ '"' ∧ c ≠ '\'' := by
    intro c hc
    have hown := hnumeral c hc
    refine ⟨?_, ?_, ?_⟩ <;> rintro rfl <;> cases hown
  refine .of_isUnquoted ?_
  rw [Bool.and_eq_true, List.all_eq_true]
  refine ⟨fun c hc => by simp [isUnquoted, hne c hc], ?_⟩
  clear hnumeral
  generalize false = inside
  induction text generalizing inside with
  | nil => rfl
  | cons c rest ih =>
    rw [List.forall_mem_cons] at hne
    rw [spares, ih hne.2]
    simp [hne.1]

end Sparing

section Literals

variable {quote c : Char} {text : List Char}

/-- Between quotes, a character does not count. -/
theorem bare_quoted (hback : c ≠ '\\') (hquote : c ≠ quote) :
    bare (.quoted quote) (c :: text) = bare (.quoted quote) text := by
  simp [bare, Zone.next, hback, hquote]

/-- Between quotes, an escaped character does not count, also if it is a quote. -/
theorem bare_escaped : bare (.quoted quote) ('\\' :: c :: text) = bare (.quoted quote) text := by
  simp [bare, Zone.next]

/-- A written character stays between its quotes. -/
theorem bare_escape (hquote : quote = '"' ∨ quote = '\'') :
    bare (.quoted quote) ((escape quote c).toList ++ text) = bare (.quoted quote) text := by
  have hdigit : ∀ n < 16, Nat.digitChar n ≠ '\\' ∧ Nat.digitChar n ≠ '"' ∧
      Nat.digitChar n ≠ '\'' := by decide
  rcases written_cases quote c with ⟨d, hescape⟩ | ⟨high, hhigh, low, hlow, hescape⟩ |
    ⟨hescape, hback, hown⟩ <;> rw [hescape]
  · exact bare_escaped
  · have hplain : ∀ n < 16, ∀ text, bare (.quoted quote) (Nat.digitChar n :: text) =
        bare (.quoted quote) text := by
      intro n hn text
      obtain ⟨hback, hdouble, hsingle⟩ := hdigit n hn
      refine bare_quoted hback ?_
      rcases hquote with rfl | rfl <;> assumption
    exact bare_escaped.trans ((hplain high hhigh _).trans (hplain low hlow _))
  · exact bare_quoted hback hown

/-- A character literal mentions no temporary, whatever its character is. -/
theorem isSparing_charLiteral (c : Char) : IsSparing (charLiteral c).toList := by
  refine ⟨(closed_charLiteral c).selfContained.ended, ?_⟩
  simp only [charLiteral, String.toList_append, List.append_assoc]
  change spares false ('\'' :: bare (.quoted '\'') ((escape '\'' c).toList ++ ['\''])) = true
  rw [bare_escape (.inr rfl)]
  rfl

/-- A string literal mentions no temporary, whatever stands in it. -/
theorem isSparing_stringLiteral (text : List Char) : IsSparing (stringLiteral text).toList := by
  have hbody : bare (.quoted '"') ((String.join (text.map (escape '"'))).toList ++ ['"', ')']) =
      [')'] := by
    induction text with
    | nil => rfl
    | cons c text ih =>
      rw [List.map_cons, String.join_cons, String.toList_append, List.append_assoc,
        bare_escape (.inl rfl), ih]
  refine ⟨(closed_stringLiteral text).selfContained.ended, ?_⟩
  simp only [stringLiteral, String.toList_append, List.append_assoc]
  change spares false ("std::string(\"".toList ++
    bare (.quoted '"') ((String.join (text.map (escape '"'))).toList ++ ['"', ')'])) = true
  rw [hbody]
  rfl

end Literals

end Sprout.Target
