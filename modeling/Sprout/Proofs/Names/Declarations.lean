import Sprout.Proofs.Arguments.Texts
import Sprout.Proofs.Blocks.Nesting

namespace Sprout

namespace Code

/-- Whether a character can be part of a word, which may be qualified as in `std::string`. -/
def isWordPart (c : Char) : Bool :=
  Token.isNamePart c || c = ':'

/-- What stands behind the angle brackets at the front of a text, of which `depth` are open. A line
declares a name if it starts with a type, perhaps with angle brackets, a blank, and the name with
its initializer. -/
def behindAngles (depth : Nat) : List Char → List Char
  | [] => []
  | c :: rest =>
    if c = '<' then behindAngles (depth + 1) rest
    else if depth = 0 then c :: rest
    else behindAngles (if c = '>' then depth - 1 else depth) rest

/-- What stands behind the word at the front of a text and the angle brackets that belong to it. -/
def behindWord (text : List Char) : List Char :=
  behindAngles 0 (text.dropWhile isWordPart)

/-- A text without the `const` in front of it. -/
def withoutConst (text : List Char) : List Char :=
  if "const ".toList.isPrefixOf text then text.drop 6 else text

/-- The name that a text declares: the text is a type, a blank, the name and its initializer. Behind
`return` stands a value. -/
def declared? (text : List Char) : Option (List Char) :=
  let rest := withoutConst text
  let word := rest.takeWhile isWordPart
  if word = [] || word = "return".toList then none
  else
    match behindWord rest with
    | ' ' :: behind =>
      let name := behind.takeWhile Token.isNamePart
      let initial := behind.dropWhile Token.isNamePart
      if name ≠ [] && (" = ".toList.isPrefixOf initial || "\x7b".toList.isPrefixOf initial) then
        some name
      else none
    | _ => none

/-- The variable that the header of a block declares: that of a loop, if the loop gives it a type. -/
def loopVariable? (header : List Char) : Option (List Char) :=
  if "RT_FOR(".toList.isPrefixOf header then
    match Target.arguments .plain 0 (header.drop 7) with
    | some (type :: name :: _, _) => if type = [] then none else some (content name)
    | _ => none
  else none

/-- The names declared directly in each open block behind a line, where `before` are those before it;
the innermost block is in front, and in each block the latest name. -/
def namesAfter (before : List (List (List Char))) (line : List Char) : List (List (List Char)) :=
  let left := if closes line then before.tail else before
  if opens line then (loopVariable? (header line)).toList :: left
  else
    match left with
    | [] => []
    | own :: outer => ((declared? (content line)).toList ++ own) :: outer

/-- The names declared directly in each block that is open behind lines, the names outside of all
blocks last. -/
def names (lines : List (List Char)) : List (List (List Char)) :=
  lines.foldl namesAfter [[]]

/-- The names behind lines, the latest of which is in front. -/
def namesBehind : List Line → List (List (List Char))
  | [] => [[]]
  | l :: earlier => namesAfter (namesBehind earlier) l.text.toList

example : names ["int32_t n = 2;".toList, "RT_FOR(int32_t, i, 0, n, 1) \x7b".toList,
    "    const bool b = (i == n);".toList, "    n = i;".toList] =
      [["b".toList, "i".toList], ["n".toList]] := by
  rfl

section Words

variable {text more : List Char} {depth : Nat}

/-- What a name goes on with, a word goes on with. -/
theorem isWordPart_of_isNamePart {c : Char} (h : Token.isNamePart c = true) : isWordPart c = true := by
  rw [isWordPart, h, Bool.true_or]

/-- Whether what follows a word ends it, and is no blank in front of another word. -/
def endsWord : List Char → Bool
  | [] => false
  | c :: rest => !isWordPart c && c ≠ '<' && (c ≠ ' ' || rest.head?.any (!isWordPart ·))

/-- Whether a text starts like a value, that is, like no declaration. -/
def startsValue (text : List Char) : Bool :=
  text.all isWordPart || endsWord (behindWord text)

/-- A text that ends its word does so whatever stands behind it. -/
theorem endsWord_append (h : endsWord text = true) : endsWord (text ++ more) = true := by
  cases text with
  | nil => cases h
  | cons c rest =>
    cases rest with
    | nil =>
      simp only [endsWord, List.head?_nil, Option.any_none, Bool.or_false, Bool.and_eq_true] at h
      simp only [List.cons_append, endsWord, h.1, h.2, Bool.true_or, Bool.and_true]
    | cons => exact h

/-- What stands behind angle brackets is the same with more text behind it. -/
theorem behindAngles_append (h : behindAngles depth text ≠ []) :
    behindAngles depth (text ++ more) = behindAngles depth text ++ more := by
  induction text generalizing depth with
  | nil => exact absurd rfl h
  | cons c text ih =>
    rw [List.cons_append]
    unfold behindAngles at h ⊢
    split
    · rename_i hc
      rw [if_pos hc] at h
      exact ih h
    · rename_i hc
      rw [if_neg hc] at h
      split
      · rfl
      · rename_i hdepth
        rw [if_neg hdepth] at h
        exact ih h

/-- A word that has ended is the same with anything behind it. -/
theorem endsWord_behindWord (h : endsWord (behindWord text) = true) :
    endsWord (behindWord (text ++ more)) = true := by
  have hsome : behindWord text ≠ [] := by
    intro hnil
    rw [hnil] at h
    cases h
  have hne : text.dropWhile isWordPart ≠ [] := by
    intro hnil
    rw [behindWord, hnil] at hsome
    exact hsome rfl
  have hdrop : (text ++ more).dropWhile isWordPart = text.dropWhile isWordPart ++ more := by
    rw [List.dropWhile_append, if_neg (by simpa using hne)]
  have hangles : behindWord (text ++ more) = behindWord text ++ more := by
    unfold behindWord at hsome ⊢
    rw [hdrop]
    exact behindAngles_append hsome
  rw [hangles]
  exact endsWord_append h

/-- A text that starts like a value does so with anything behind it that ends a word. -/
theorem startsValue_append (h : startsValue text = true) (hmore : endsWord more = true) :
    startsValue (text ++ more) = true := by
  unfold startsValue at h ⊢
  rw [Bool.or_eq_true] at h ⊢
  right
  cases h with
  | inl hword =>
    cases more with
    | nil => cases hmore
    | cons c rest =>
      have hends := hmore
      simp only [endsWord, Bool.and_eq_true, Bool.not_eq_true', decide_eq_true_eq] at hends
      have hdrop : (text ++ c :: rest).dropWhile isWordPart = c :: rest := by
        rw [List.dropWhile_append_of_pos (List.all_eq_true.1 hword),
          List.dropWhile_cons_of_neg (by simp [hends.1.1])]
      rw [behindWord, hdrop, behindAngles, if_neg hends.1.2, if_pos rfl]
      exact hmore
  | inr hbehind => exact endsWord_behindWord hbehind

/-- A word with no word behind it starts a value, and so no declaration. -/
theorem startsValue_of_endsWord (h : endsWord (behindWord text) = true) :
    startsValue (text ++ more) = true := by
  rw [startsValue, endsWord_behindWord h, Bool.or_true]

/-- Nothing stands behind a text that is one word. -/
theorem behindWord_of_all (h : text.all isWordPart = true) : behindWord text = [] := by
  rw [behindWord, List.dropWhile_eq_nil_iff.2 (List.all_eq_true.1 h)]
  rfl

/-- Behind the word that a value starts with, no other word follows. -/
theorem head?_of_startsValue {behind : List Char} (h : startsValue text = true)
    (hbehind : behindWord text = ' ' :: behind) : behind.head?.any isWordPart = false := by
  rw [startsValue, Bool.or_eq_true] at h
  cases h with
  | inl hall =>
    rw [behindWord_of_all hall] at hbehind
    cases hbehind
  | inr hends =>
    rw [hbehind, endsWord, Bool.and_eq_true] at hends
    cases behind with
    | nil => rfl
    | cons c rest => simpa using hends.2

/-- A run that does not start is empty. -/
theorem takeWhile_of_head? {p : Char → Bool} (h : text.head?.any p = false) :
    text.takeWhile p = [] := by
  cases text with
  | nil => rfl
  | cons c rest => exact List.takeWhile_cons_of_neg (by simpa using h)

/-- A value does not start with `const`, unless no word follows. -/
theorem withoutConst_of_startsValue (h : startsValue text = true) :
    withoutConst text = text ∨ (withoutConst text).takeWhile isWordPart = [] := by
  unfold withoutConst
  split
  · rename_i hconst
    obtain ⟨rest, rfl⟩ := List.isPrefixOf_iff_prefix.1 hconst
    exact .inr (takeWhile_of_head? (head?_of_startsValue h rfl))
  · exact .inl rfl

/-- What starts like a value declares nothing: behind its first word, and angle brackets of that,
stands no blank with another word behind it. -/
theorem declared?_of_startsValue (h : startsValue text = true) : declared? text = none := by
  unfold declared?
  dsimp only
  split
  · rfl
  · rename_i hword
    have hsame : withoutConst text = text := by
      refine (withoutConst_of_startsValue h).resolve_right fun hnone => hword ?_
      rw [hnone]
      rfl
    rw [hsame]
    split
    · rename_i behind hbehind
      have hnone := head?_of_startsValue h hbehind
      have hname : behind.takeWhile Token.isNamePart = [] := by
        refine takeWhile_of_head? ?_
        cases hhead : behind.head? with
        | none => rfl
        | some c =>
          rw [hhead, Option.any_some] at hnone
          exact Bool.eq_false_iff.2 fun hpart => by simp [isWordPart_of_isNamePart hpart] at hnone
      simp [hname]
    · rfl

/-- A `return` declares nothing. -/
theorem declared?_return (text : List Char) : declared? ("return ".toList ++ text) = none := by
  rfl

end Words

section Types

variable {text more : List Char}

/-- Between angle brackets, the text is read over as a whole. -/
def Skipped (text : List Char) : Prop :=
  ∀ depth rest, behindAngles (depth + 1) (text ++ rest) = behindAngles (depth + 1) rest

/-- Texts that close their angle brackets do so one behind the other. -/
theorem Skipped.append (h : Skipped text) (hmore : Skipped more) : Skipped (text ++ more) := by
  intro depth rest
  rw [List.append_assoc, h, hmore]

/-- A text without angle brackets closes them. -/
theorem Skipped.of_all (h : text.all (fun c => c ≠ '<' && c ≠ '>') = true) : Skipped text := by
  intro depth rest
  induction text with
  | nil => rfl
  | cons c text ih =>
    rw [List.all_cons, Bool.and_eq_true, Bool.and_eq_true, decide_eq_true_eq, decide_eq_true_eq] at h
    rw [List.cons_append, behindAngles, if_neg h.1.1, if_neg (Nat.succ_ne_zero depth), if_neg h.1.2]
    exact ih h.2

/-- Angle brackets around such a text are skipped with it. -/
theorem behindAngles_bracketed (h : Skipped text) (depth : Nat) (rest : List Char) :
    behindAngles depth ('<' :: (text ++ '>' :: rest)) = behindAngles depth rest := by
  rw [behindAngles, if_pos rfl, h]
  rfl

/-- A text closes its angle brackets with a pair of them around it. -/
theorem Skipped.bracketed (h : Skipped text) : Skipped ('<' :: (text ++ ['>'])) := by
  intro depth rest
  simpa using behindAngles_bracketed h (depth + 1) rest

/-- A number has no angle brackets. -/
theorem skipped_nat (n : Nat) : Skipped (toString n).toList := by
  refine .of_all (List.all_eq_true.2 fun c hc => ?_)
  have hdigit := Effect.isDigit_toString n c hc
  have hopening : c ≠ '<' := by rintro rfl; cases hdigit
  have hclosing : c ≠ '>' := by rintro rfl; cases hdigit
  simp [hopening, hclosing]

mutual
/-- A type closes its angle brackets, by induction on the type. So what is skipped for one that is
open ends inside the type. -/
theorem skipped_type : (type : Ty) → Skipped type.target.toList
  | .primitive p => .of_all (by cases p <;> rfl)
  | .array element (some size) => by
    have hword : Skipped "rt::array".toList := .of_all rfl
    have hcomma : Skipped ", ".toList := .of_all rfl
    have hinner := ((skipped_type element).append hcomma).append (skipped_nat size)
    simpa [Ty.target] using hword.append hinner.bracketed
  | .array element none => by
    have hword : Skipped "rt::vector".toList := .of_all rfl
    simpa [Ty.target] using hword.append (skipped_type element).bracketed
  | .tuple items => by
    have hword : Skipped "std::tuple".toList := .of_all rfl
    simpa [Ty.target] using hword.append (skipped_types items).bracketed
  | .null => .of_all rfl
/-- The types in a tuple close their angle brackets. -/
theorem skipped_types : (items : List Ty) → Skipped (", ".intercalate (Ty.targetAll items)).toList
  | [] => .of_all rfl
  | [item] => by simpa [Ty.targetAll] using skipped_type item
  | item :: next :: items => by
    have hcomma : Skipped ", ".toList := .of_all rfl
    have hrest := skipped_types (next :: items)
    simpa [Ty.targetAll, String.intercalate_cons_cons] using
      (skipped_type item).append (hcomma.append hrest)
end

/-- Whether a word can be that of a type. -/
def isTypeWord (word : List Char) : Bool :=
  word.all isWordPart && word ≠ [] && word ≠ "return".toList && word ≠ "const".toList

/-- A type is a word, with or without angle brackets. -/
theorem target_cases (type : Ty) :
    ∃ word angles, type.target.toList = word ++ angles ∧ isTypeWord word = true ∧
      (angles = [] ∨ ∃ inner, Skipped inner ∧ angles = '<' :: (inner ++ ['>'])) := by
  cases type with
  | primitive p => exact ⟨p.target.toList, [], by simp [Ty.target], by cases p <;> rfl, .inl rfl⟩
  | array element size =>
    cases size with
    | none =>
      refine ⟨"rt::vector".toList, _, ?_, rfl, .inr ⟨_, skipped_type element, rfl⟩⟩
      simp [Ty.target]
    | some size =>
      have hcomma : Skipped ", ".toList := .of_all rfl
      have hinner := ((skipped_type element).append hcomma).append (skipped_nat size)
      refine ⟨"rt::array".toList, _, ?_, rfl, .inr ⟨_, hinner, rfl⟩⟩
      simp [Ty.target]
  | tuple items =>
    refine ⟨"std::tuple".toList, _, ?_, rfl, .inr ⟨_, skipped_types items, rfl⟩⟩
    simp [Ty.target]
  | null => exact ⟨"std::nullptr_t".toList, [], by simp [Ty.target], rfl, .inl rfl⟩

/-- In front of a blank, a type is read as a whole: its first word, and the angle brackets behind
that, in which types and sizes stand. -/
theorem read_type (type : Ty) (rest : List Char) :
    isTypeWord ((type.target.toList ++ ' ' :: rest).takeWhile isWordPart) = true ∧
      behindWord (type.target.toList ++ ' ' :: rest) = ' ' :: rest := by
  obtain ⟨word, angles, htype, hword, hangles⟩ := target_cases type
  have hall : word.all isWordPart = true := by
    simp only [isTypeWord, Bool.and_eq_true] at hword
    exact hword.1.1.1
  have hends : (angles ++ ' ' :: rest).head?.any isWordPart = false ∧
      behindAngles 0 (angles ++ ' ' :: rest) = ' ' :: rest := by
    rcases hangles with rfl | ⟨inner, hinner, rfl⟩
    · exact ⟨rfl, rfl⟩
    · refine ⟨rfl, ?_⟩
      simpa [behindAngles] using behindAngles_bracketed hinner 0 (' ' :: rest)
  have hdrop : (angles ++ ' ' :: rest).dropWhile isWordPart = angles ++ ' ' :: rest := by
    cases hstart : angles ++ ' ' :: rest with
    | nil => rfl
    | cons c others =>
      rw [hstart] at hends
      exact List.dropWhile_cons_of_neg (by simpa using hends.1)
  rw [htype, List.append_assoc]
  constructor
  · rw [List.takeWhile_append_of_pos (List.all_eq_true.1 hall), takeWhile_of_head? hends.1,
      List.append_nil]
    exact hword
  · rw [behindWord, List.dropWhile_append_of_pos (List.all_eq_true.1 hall), hdrop]
    exact hends.2

/-- No type starts with `const`. -/
theorem withoutConst_type (type : Ty) (rest : List Char) :
    withoutConst (type.target.toList ++ ' ' :: rest) = type.target.toList ++ ' ' :: rest := by
  obtain ⟨hword, -⟩ := read_type type rest
  unfold withoutConst
  split
  · rename_i hconst
    obtain ⟨more, hmore⟩ := List.isPrefixOf_iff_prefix.1 hconst
    rw [← hmore] at hword
    cases hword
  · rfl

variable {name initial : List Char}

/-- The name behind a type is declared, if its initializer follows. -/
theorem declared?_type (type : Ty) (hname : ∀ c ∈ name, Token.isNamePart c = true) (hne : name ≠ [])
    (hinitial : (" = ".toList.isPrefixOf initial || "\x7b".toList.isPrefixOf initial) = true) :
    declared? (type.target.toList ++ ' ' :: (name ++ initial)) = some name := by
  obtain ⟨hword, hbehind⟩ := read_type type (name ++ initial)
  have hends : initial.head?.any Token.isNamePart = false := by
    rw [Bool.or_eq_true, List.isPrefixOf_iff_prefix, List.isPrefixOf_iff_prefix] at hinitial
    rcases hinitial with ⟨more, rfl⟩ | ⟨more, rfl⟩ <;> rfl
  have htake : (name ++ initial).takeWhile Token.isNamePart = name := by
    rw [List.takeWhile_append_of_pos hname, takeWhile_of_head? hends, List.append_nil]
  have hdrop : (name ++ initial).dropWhile Token.isNamePart = initial := by
    have hsplit := List.takeWhile_append_dropWhile (p := Token.isNamePart) (l := name ++ initial)
    rw [htake] at hsplit
    exact List.append_cancel_left hsplit
  simp only [isTypeWord, Bool.and_eq_true, decide_eq_true_eq] at hword
  unfold declared?
  dsimp only
  rw [withoutConst_type, hbehind, if_neg (by simpa [hword.1.1.2] using hword.1.2)]
  simp only [htake, hdrop, hinitial]
  exact if_pos (by simp [hne])

/-- The word in front of the type of a constant is skipped. -/
theorem declared?_const (type : Ty) (rest : List Char) :
    declared? ("const ".toList ++ (type.target.toList ++ ' ' :: rest)) =
      declared? (type.target.toList ++ ' ' :: rest) := by
  have hconst : withoutConst ("const ".toList ++ (type.target.toList ++ ' ' :: rest)) =
      type.target.toList ++ ' ' :: rest := rfl
  unfold declared?
  rw [hconst, withoutConst_type]

end Types

section Lines

variable {text : String} {kind : Scope.Kind} {own : List (List Char)} {outer : List (List (List Char))}

/-- A sentence adds the name that it declares to the innermost block. -/
theorem namesAfter_sentence (hsolid : Target.isSolid text = true) (hended : Target.isEnded text = true) :
    namesAfter (own :: outer) text.toList = ((declared? text.toList).toList ++ own) :: outer := by
  obtain ⟨hcontent, hcloses⟩ := content_of_isFlush (Target.isSolid_iff.1 hsolid).1
  simp only [namesAfter, hcloses, not_opens_of_isEnded hended, hcontent, Bool.false_eq_true, if_false]

/-- A header opens a block, in which only a loop declares a name. -/
theorem namesAfter_header (h : OpensFresh kind text) (before : List (List (List Char))) :
    namesAfter before text.toList = (loopVariable? text.toList).toList :: before := by
  obtain ⟨hcontent, hcloses⟩ := content_of_isFlush h.isFlush
  simp only [namesAfter, header, hcloses, h.opens, hcontent, Bool.false_eq_true, if_false, if_true]

/-- Only the header of a loop declares a variable. -/
theorem loopVariable?_of_head? {header : List Char} (h : header.head? ≠ some 'R') :
    loopVariable? header = none := by
  cases header with
  | nil => rfl
  | cons c rest =>
    have hne : ('R' == c) = false := by simpa using Ne.symm h
    simp [loopVariable?, List.isPrefixOf, hne]

/-- An `else` opens a block without names behind the one that is closed. -/
theorem namesAfter_else (h : OpensElse kind text) (before : List (List (List Char))) :
    namesAfter before ("\x7d " ++ text).toList = [] :: before.tail := by
  obtain ⟨-, hcloses, hheader⟩ := h.blocksAfter []
  have hnone : loopVariable? text.toList = none :=
    loopVariable?_of_head? (by cases h <;> simp)
  simp only [namesAfter, hcloses, opens_append _ h.opens, hheader, hnone, if_true, Option.toList_none]

/-- A closing brace leaves the names around its block. -/
theorem namesAfter_brace (before : List (List (List Char))) :
    namesAfter before "\x7d".toList = before.tail := by
  have hcontent : declared? (content "\x7d".toList) = none := rfl
  have hopens : opens "\x7d".toList = false := rfl
  simp only [namesAfter, closes_brace, hopens, hcontent, Bool.false_eq_true, if_false, if_true]
  cases before.tail <;> rfl

open Target in
/-- A loop declares its variable if it gives it a type. -/
theorem loopVariable?_loop {type name : String} {others : List String}
    (h : ∀ text ∈ type :: name :: others, Closed text.toList) :
    loopVariable? ("RT_FOR(" ++ ", ".intercalate (type :: name :: others) ++ ") \x7b").toList =
      if type = "" then none else some (content name.toList) := by
  have hargs : arguments .plain 0
      ((", ".intercalate (type :: name :: others)).toList ++ ')' :: " \x7b".toList) =
        some (type.toList :: (name :: others).map (' ' :: ·.toList), " \x7b".toList) :=
    arguments_intercalate h
  have hdrop : ("RT_FOR(" ++ ", ".intercalate (type :: name :: others) ++ ") \x7b").toList.drop 7 =
      (", ".intercalate (type :: name :: others)).toList ++ ')' :: " \x7b".toList := by
    simp
  have hprefix : "RT_FOR(".toList.isPrefixOf
      ("RT_FOR(" ++ ", ".intercalate (type :: name :: others) ++ ") \x7b").toList = true := by
    simp
  have hblank : content (' ' :: name.toList) = content name.toList := rfl
  simp only [loopVariable?, hprefix, hdrop, hargs, if_true, List.map_cons, hblank,
    String.toList_eq_nil_iff]

end Lines

end Code

end Sprout
