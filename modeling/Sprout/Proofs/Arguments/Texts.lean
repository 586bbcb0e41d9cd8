import Sprout.Proofs.Blocks.Texts

namespace Sprout.Target

/-- Where the reading of a text stands: outside quotes, or between them, perhaps behind a backslash.
Before C++ looks at any word, it sees quotes, parentheses and commas; quotes hide what stands
between them. -/
inductive Zone
  | plain
  | quoted (quote : Char)
  | escaped (quote : Char)
deriving DecidableEq, Repr

namespace Zone

/-- Where the reading stands behind a character. -/
def next : Zone → Char → Zone
  | plain, c => if c = '"' || c = '\'' then quoted c else plain
  | quoted quote, c => if c = '\\' then escaped quote else if c = quote then plain else quoted quote
  | escaped quote, _ => quoted quote

/-- Where the reading stands behind a text. -/
def behind (zone : Zone) (text : List Char) : Zone :=
  text.foldl next zone

/-- The number of open parentheses behind a character. -/
def depthAfter (zone : Zone) (depth : Nat) (c : Char) : Nat :=
  if zone = plain then if c = '(' then depth + 1 else if c = ')' then depth - 1 else depth
  else depth

/-- Whether a character ends an argument that has `depth` open parentheses in front of it. -/
def cuts (zone : Zone) (depth : Nat) (c : Char) : Bool :=
  zone = plain && depth = 0 && (c = ',' || c = ')')

end Zone

/-- The characters of a text that are not between quotes, read from a zone. -/
def bare (zone : Zone) : List Char → List Char
  | [] => []
  | c :: rest => if zone = .plain then c :: bare (zone.next c) rest else bare (zone.next c) rest

/-- A text by itself: it ends outside quotes; of its characters outside quotes, the parentheses are
balanced, no front of the text closes more of them than it opens, and every comma stands inside of
some. -/
structure SelfContained (text : List Char) : Prop where
  ended : Zone.plain.behind text = .plain
  balanced : (bare .plain text).count ')' = (bare .plain text).count '('
  nested : ∀ front back, text = front ++ back →
    (bare .plain front).count ')' ≤ (bare .plain front).count '('
  inside : ∀ front back, text = front ++ ',' :: back → Zone.plain.behind front = .plain →
    (bare .plain front).count ')' < (bare .plain front).count '('

/-- Puts a text in front of the first of several arguments. -/
def prepend (text : List Char) : List (List Char) → List (List Char)
  | [] => []
  | arg :: args => (text ++ arg) :: args

/-- The arguments of a call, read behind its opening parenthesis, and the text behind its closing
parenthesis; nothing if the call has no end. -/
def arguments (zone : Zone) (depth : Nat) : List Char → Option (List (List Char) × List Char)
  | [] => none
  | c :: rest =>
    if zone.cuts depth c then
      if c = ')' then some ([[]], rest) else (arguments .plain 0 rest).map (Prod.map ([] :: ·) id)
    else (arguments (zone.next c) (zone.depthAfter depth c) rest).map (Prod.map (prepend [c]) id)

/-- Whether a text is a call of a callee, which stands by itself, with so many arguments: the last
parentheses of the text hold them. -/
def IsCall (callee text : String) (count : Nat) : Prop :=
  SelfContained callee.toList ∧ ∃ inner args, text = callee ++ "(" ++ inner ++ ")" ∧
    arguments .plain 0 (inner ++ ")").toList = some (args, []) ∧
    count = if args = [[]] then 0 else args.length

/-- Reads a text with `depth` parentheses open: where the reading stands behind it and how many are
open there; nothing if a character of the text ends the argument that it stands in. -/
def walk (zone : Zone) (depth : Nat) : List Char → Option (Zone × Nat)
  | [] => some (zone, depth)
  | c :: rest =>
    if zone.cuts depth c then none else walk (zone.next c) (zone.depthAfter depth c) rest

section Walks

variable {zone zone' : Zone} {depth depth' : Nat} {text more front back : List Char} {c : Char}

/-- A text is walked in two pieces. -/
theorem walk_append :
    walk zone depth (text ++ more) =
      (walk zone depth text).bind fun (zone', depth') => walk zone' depth' more := by
  induction text generalizing zone depth with
  | nil => rfl
  | cons c text ih =>
    simp only [List.cons_append, walk]
    split
    · rfl
    · exact ih

/-- Further parentheses around a text change nothing inside it: a walk that starts deeper ends
deeper by as much, and stays between quotes where it did. -/
theorem walk_deeper (k : Nat) (h : walk zone depth text = some (zone', depth')) :
    walk zone (depth + k) text = some (zone', depth' + k) := by
  induction text generalizing zone depth with
  | nil =>
    cases h
    rfl
  | cons c text ih =>
    rw [walk] at h ⊢
    split at h
    · cases h
    · rename_i hcuts
      have hdeeper : zone.cuts (depth + k) c = false ∧
          zone.depthAfter (depth + k) c = zone.depthAfter depth c + k := by
        simp only [Zone.cuts, Zone.depthAfter] at hcuts ⊢
        by_cases hplain : zone = .plain
        · by_cases hclosing : c = ')'
          · have hopen : 0 < depth := by
              by_contra hnone
              simp [hplain, hclosing, Nat.eq_zero_of_not_pos hnone] at hcuts
            simp [hplain, hclosing]
            omega
          · simp only [hplain, hclosing, if_true, if_false] at hcuts ⊢
            refine ⟨?_, by split <;> omega⟩
            by_cases hcomma : c = ','
            · simp [hcomma] at hcuts ⊢
              omega
            · simp [hcomma]
        · simp [hplain]
      rw [hdeeper.1, hdeeper.2, if_neg (by simp)]
      exact ih h

/-- What a walk counts are the parentheses outside quotes, by induction on the text. Between the
depths at its ends lie just the ones it has opened and not closed. -/
theorem count_of_walk (h : walk zone depth text = some (zone', depth')) :
    zone' = zone.behind text ∧
      depth' + (bare zone text).count ')' = depth + (bare zone text).count '(' := by
  induction text generalizing zone depth with
  | nil =>
    cases h
    exact ⟨rfl, rfl⟩
  | cons c text ih =>
    rw [walk] at h
    split at h
    · cases h
    · rename_i hcuts
      obtain ⟨hzone, hcount⟩ := ih h
      refine ⟨hzone, ?_⟩
      rw [bare]
      by_cases hplain : zone = .plain
      · simp only [hplain, Zone.cuts, Zone.depthAfter, if_true] at hcuts hcount ⊢
        rw [List.count_cons, List.count_cons]
        by_cases hopening : c = '('
        · simp [hopening] at hcount ⊢
          omega
        · by_cases hclosing : c = ')'
          · have hopen : 0 < depth := by
              by_contra hnone
              simp [hclosing, Nat.eq_zero_of_not_pos hnone] at hcuts
            simp [hclosing] at hcount ⊢
            omega
          · simpa [hopening, hclosing] using hcount
      · simpa [Zone.depthAfter, hplain] using hcount

/-- A text that can be read to its end without an argument ending in it. -/
def Closed (text : List Char) : Prop :=
  walk .plain 0 text = some (.plain, 0)

/-- A closed text stands by itself: what is put in front of it and behind it does not change where
its quotes end and which commas are inside parentheses. -/
theorem Closed.selfContained (h : Closed text) : SelfContained text := by
  have hfront : ∀ front back, text = front ++ back →
      ∃ zone depth, walk .plain 0 front = some (zone, depth) ∧
        walk zone depth back = some (.plain, 0) := by
    rintro front back rfl
    rw [Closed, walk_append, Option.bind_eq_some_iff] at h
    obtain ⟨⟨zone, depth⟩, hwalk, hrest⟩ := h
    exact ⟨zone, depth, hwalk, hrest⟩
  obtain ⟨hended, hcount⟩ := count_of_walk h
  refine ⟨hended.symm, by omega, fun front back heq => ?_, fun front back heq hplain => ?_⟩
  · obtain ⟨zone, depth, hwalk, -⟩ := hfront front back heq
    have hopened := (count_of_walk hwalk).2
    omega
  · obtain ⟨zone, depth, hwalk, hrest⟩ := hfront front _ heq
    obtain ⟨rfl, hopened⟩ := count_of_walk hwalk
    rw [hplain, walk] at hrest
    have hinside : depth ≠ 0 := by
      rintro rfl
      simp [Zone.cuts] at hrest
    omega

/-- No text is closed. -/
theorem Closed.nil : Closed [] := rfl

/-- Closed texts are closed one behind the other. -/
theorem Closed.append (h : Closed text) (h' : Closed more) : Closed (text ++ more) := by
  rw [Closed, walk_append, h]
  exact h'

/-- Whether a character is no quote, no parenthesis and no comma. -/
def isQuiet (c : Char) : Bool :=
  c ≠ '"' && c ≠ '\'' && c ≠ '(' && c ≠ ')' && c ≠ ','

/-- A text without quotes, commas and parentheses is closed. -/
theorem Closed.of_quiet (h : text.all isQuiet = true) : Closed text := by
  induction text with
  | nil => rfl
  | cons c text ih =>
    rw [List.all_cons, Bool.and_eq_true] at h
    have hc := h.1
    simp only [isQuiet, Bool.and_eq_true, decide_eq_true_eq] at hc
    have hstays : Zone.plain.cuts 0 c = false ∧ Zone.plain.next c = .plain ∧
        Zone.plain.depthAfter 0 c = 0 := by
      simp [Zone.cuts, Zone.next, Zone.depthAfter, hc]
    rw [Closed, walk, hstays.1, hstays.2.1, hstays.2.2, if_neg (by simp)]
    exact ih h.2

/-- A text that can stand between parentheses: of its commas nothing is asked. -/
def Fills (text : List Char) : Prop :=
  walk .plain 1 text = some (.plain, 1)

/-- A closed text can stand between parentheses. -/
theorem Closed.fills (h : Closed text) : Fills text :=
  walk_deeper 1 h

/-- Texts that can stand between parentheses can do so with a comma between them. -/
theorem Fills.comma (h : Fills text) (h' : Fills more) : Fills (text ++ (", ".toList ++ more)) := by
  rw [Fills, walk_append, h]
  exact h'

/-- A text that can stand between parentheses is closed with them around it. -/
theorem Fills.parenthesised (h : Fills text) : Closed ('(' :: (text ++ [')'])) := by
  change walk .plain 1 (text ++ [')']) = some (.plain, 0)
  rw [walk_append, h]
  rfl

end Walks

section Arguments

variable {zone zone' : Zone} {depth depth' : Nat} {text more rest : List Char}

/-- Putting nothing in front of the first argument changes nothing. -/
theorem prepend_nil (args : List (List Char)) : prepend [] args = args := by
  cases args <;> rfl

/-- Text is put in front of the first argument at once or piece by piece. -/
theorem prepend_prepend (args : List (List Char)) :
    prepend text (prepend more args) = prepend (text ++ more) args := by
  cases args with
  | nil => rfl
  | cons arg args => simp [prepend]

/-- A text in which no argument ends belongs to the first argument as a whole. -/
theorem arguments_append (h : walk zone depth text = some (zone', depth')) :
    arguments zone depth (text ++ rest) =
      (arguments zone' depth' rest).map (Prod.map (prepend text) id) := by
  induction text generalizing zone depth with
  | nil =>
    cases h
    rw [show prepend [] = id from funext prepend_nil, Prod.map_id, Option.map_id]
    rfl
  | cons c text ih =>
    rw [walk] at h
    split at h
    · cases h
    · rename_i hcuts
      have hprepend : prepend [c] ∘ prepend text = prepend (c :: text) :=
        funext fun _ => prepend_prepend _
      rw [List.cons_append, arguments, if_neg hcuts, ih h, Option.map_map, Prod.map_comp_map,
        hprepend, Function.id_comp]

/-- A closed text in front of the last parenthesis is the last argument. -/
theorem arguments_end (h : Closed text) :
    arguments .plain 0 (text ++ ')' :: rest) = some ([text], rest) := by
  rw [arguments_append h]
  simp [arguments, Zone.cuts, prepend]

/-- A closed text in front of a comma is an argument. -/
theorem arguments_comma {args : List (List Char)} (h : Closed text)
    (hmore : arguments .plain 0 more = some (args, rest)) :
    arguments .plain 0 (text ++ ',' :: more) = some (text :: args, rest) := by
  rw [arguments_append h]
  simp [arguments, Zone.cuts, hmore, prepend]

/-- Texts by themselves, joined by commas, are the arguments that they were. Each but the first has
the blank behind its comma in front of it. -/
theorem arguments_intercalate {text : String} {texts : List String}
    (h : ∀ own ∈ text :: texts, Closed own.toList) :
    arguments .plain 0 ((", ".intercalate (text :: texts)).toList ++ ')' :: rest) =
      some (text.toList :: texts.map (' ' :: ·.toList), rest) := by
  induction texts generalizing text with
  | nil =>
    have hown := h text (by simp)
    simpa using arguments_end hown
  | cons next texts ih =>
    rw [List.forall_mem_cons] at h
    have hblank : walk .plain 0 [' '] = some (.plain, 0) := rfl
    have hspaced : arguments .plain 0
        ([' '] ++ ((", ".intercalate (next :: texts)).toList ++ ')' :: rest)) =
          some ((' ' :: next.toList) :: texts.map (' ' :: ·.toList), rest) := by
      rw [arguments_append hblank, ih h.2]
      rfl
    rw [String.intercalate_cons_cons, String.toList_append, String.toList_append, List.append_assoc,
      List.append_assoc]
    exact arguments_comma h.1 hspaced

/-- Texts by themselves between parentheses are the arguments of a call. One text alone that is empty
would be none. -/
theorem IsCall.of_closed {callee : String} {texts : List String} (hcallee : Closed callee.toList)
    (htexts : ∀ own ∈ texts, Closed own.toList) (hne : texts ≠ [""]) :
    IsCall callee (callee ++ "(" ++ ", ".intercalate texts ++ ")") texts.length := by
  refine ⟨hcallee.selfContained, ", ".intercalate texts, ?_⟩
  cases texts with
  | nil => exact ⟨[[]], rfl, rfl, rfl⟩
  | cons text others =>
    refine ⟨text.toList :: others.map (' ' :: ·.toList), rfl, ?_, ?_⟩
    · rw [String.toList_append]
      exact arguments_intercalate htexts
    · have hsome : text.toList :: others.map (' ' :: ·.toList) ≠ [[]] := by
        intro heq
        obtain ⟨hempty, hnone⟩ := List.cons.inj heq
        refine hne ?_
        rw [String.toList_eq_nil_iff.1 hempty, List.map_eq_nil_iff.1 hnone]
      rw [if_neg hsome]
      simp

end Arguments

section Literals

variable {quote c : Char} {depth : Nat} {text : List Char}

/-- A character of a literal is written as an escape, or as itself if it needs none. -/
theorem written_cases (quote c : Char) :
    (∃ d, (escape quote c).toList = ['\\', d]) ∨
      (∃ high < 16, ∃ low < 16,
        (escape quote c).toList = ['\\', 'x', Nat.digitChar high, Nat.digitChar low]) ∨
      (escape quote c).toList = [c] ∧ c ≠ '\\' ∧ c ≠ quote := by
  unfold escape
  repeat' split
  · exact .inl ⟨'n', rfl⟩
  · exact .inl ⟨'t', rfl⟩
  · exact .inl ⟨'r', rfl⟩
  · exact .inl ⟨'0', rfl⟩
  · exact .inl ⟨'\\', rfl⟩
  · exact .inl ⟨c, by simp⟩
  · rename_i hcontrol
    simp only [Bool.or_eq_true, decide_eq_true_eq] at hcontrol
    have hpair : (hexPair c.toNat).toList =
        [Nat.digitChar (c.toNat / 16), Nat.digitChar (c.toNat % 16)] := String.toList_ofList
    refine .inr (.inl ⟨c.toNat / 16, by omega, c.toNat % 16, by omega, ?_⟩)
    rw [String.toList_append, hpair]
    rfl
  · rename_i hback hown _
    exact .inr (.inr ⟨by simp, hback, hown⟩)

/-- Between quotes, a character is passed by. -/
theorem walk_quoted (hback : c ≠ '\\') (hquote : c ≠ quote) :
    walk (.quoted quote) depth (c :: text) = walk (.quoted quote) depth text := by
  simp [walk, Zone.cuts, Zone.next, Zone.depthAfter, hback, hquote]

/-- Between quotes, an escaped character is passed by, also if it is a quote. -/
theorem walk_escaped :
    walk (.quoted quote) depth ('\\' :: c :: text) = walk (.quoted quote) depth text := by
  simp [walk, Zone.cuts, Zone.next, Zone.depthAfter]

/-- A written character does not end its literal. -/
theorem walk_escape (hquote : quote = '"' ∨ quote = '\'') :
    walk (.quoted quote) depth ((escape quote c).toList ++ text) =
      walk (.quoted quote) depth text := by
  have hdigit : ∀ n < 16, Nat.digitChar n ≠ '\\' ∧ Nat.digitChar n ≠ '"' ∧
      Nat.digitChar n ≠ '\'' := by decide
  rcases written_cases quote c with ⟨d, hescape⟩ | ⟨high, hhigh, low, hlow, hescape⟩ |
    ⟨hescape, hback, hown⟩ <;> rw [hescape]
  · exact walk_escaped
  · have hplain : ∀ n < 16, ∀ text, walk (.quoted quote) depth (Nat.digitChar n :: text) =
        walk (.quoted quote) depth text := by
      intro n hn text
      obtain ⟨hback, hdouble, hsingle⟩ := hdigit n hn
      refine walk_quoted hback ?_
      rcases hquote with rfl | rfl <;> assumption
    exact walk_escaped.trans ((hplain high hhigh _).trans (hplain low hlow _))
  · exact walk_quoted hback hown

/-- A character literal is closed, whatever its character is. -/
theorem closed_charLiteral (c : Char) : Closed (charLiteral c).toList := by
  simp only [charLiteral, String.toList_append, List.append_assoc]
  change walk (.quoted '\'') 0 ((escape '\'' c).toList ++ ['\'']) = _
  rw [walk_escape (.inr rfl)]
  rfl

/-- A string literal is closed, whatever stands in it. -/
theorem closed_stringLiteral (text : List Char) : Closed (stringLiteral text).toList := by
  have hbody : walk (.quoted '"') 1 ((String.join (text.map (escape '"'))).toList ++ ['"', ')']) =
      some (.plain, 0) := by
    induction text with
    | nil => rfl
    | cons c text ih =>
      rw [List.map_cons, String.join_cons, String.toList_append, List.append_assoc,
        walk_escape (.inl rfl), ih]
  simp only [stringLiteral, String.toList_append, List.append_assoc]
  exact hbody

end Literals

/-- A text of characters in a class is closed if the class has no quotes, parentheses and commas. -/
theorem Closed.of_class {p : Char → Bool} {text : List Char} (h : ∀ c ∈ text, p c = true)
    (hp : ['"', '\'', '(', ')', ','].any p = false) : Closed text := by
  refine .of_quiet (List.all_eq_true.2 fun c hc => ?_)
  have hne : ∀ d ∈ ['"', '\'', '(', ')', ','], c ≠ d := by
    rintro d hd rfl
    exact List.any_eq_false.1 hp c hd (h c hc)
  simpa [isQuiet, and_assoc] using hne

/-- A name is closed. -/
theorem closed_name {name : String} (h : Token.IsName name) : Closed (Target.name name).toList :=
  .of_class (Effect.isNamePart_targetName h) rfl

/-- A number is closed. -/
theorem closed_number (number : Number) : Closed number.target.toList :=
  .of_class (List.all_eq_true.1 (all_numeral_number number)) rfl

end Sprout.Target
