import Sprout.Proofs.Effects.Texts

namespace Sprout

namespace Target

/-- Whether a text stays on its line. Whatever is typed does, for line feeds in strings and
characters are escaped. -/
def isOneLine (text : String) : Bool :=
  text.toList.all (· ≠ '\n')

/-- Whether a text starts with something that is neither a blank nor a closing brace. -/
def isFlush (text : String) : Bool :=
  text.toList.head?.any fun c => c ≠ ' ' && c ≠ '\x7d'

/-- Whether a text can stand in a line from its start. -/
def isSolid (text : String) : Bool :=
  isFlush text && isOneLine text

variable {text more : String}

@[simp] theorem isOneLine_append (text more : String) :
    isOneLine (text ++ more) = (isOneLine text && isOneLine more) := by
  simp [isOneLine]

@[simp] theorem isFlush_append (text more : String) :
    isFlush (text ++ more) = (isFlush text || (text = "" && isFlush more)) := by
  unfold isFlush
  rw [String.toList_append, List.head?_append]
  by_cases hempty : text = ""
  · simp [hempty]
  · obtain ⟨c, rest, hcons⟩ := List.exists_cons_of_ne_nil (mt String.toList_eq_nil_iff.1 hempty)
    simp [hempty, hcons]

/-- A text is solid if it starts flush and has one line. -/
theorem isSolid_iff : isSolid text = true ↔ isFlush text = true ∧ isOneLine text = true :=
  Bool.and_eq_true_iff

/-- A solid text stays so with anything of one line behind it. -/
theorem isSolid_append (h : isSolid text = true) (hmore : isOneLine more = true) :
    isSolid (text ++ more) = true := by
  rw [isSolid_iff] at h ⊢
  simp [h, hmore]

/-- A text all of whose characters pass a test that the line feed fails has one line. -/
theorem isOneLine_of_forall {p : Char → Bool} (hp : p '\n' = false)
    (h : ∀ c ∈ text.toList, p c = true) : isOneLine text = true := by
  rw [isOneLine, List.all_eq_true]
  intro c hc
  have hne : c ≠ '\n' := by
    rintro rfl
    rw [h _ hc] at hp
    cases hp
  simpa using hne

/-- Texts of one line each make one line with commas between them. -/
theorem isOneLine_intercalate {texts : List String} (h : ∀ text ∈ texts, isOneLine text = true) :
    isOneLine (", ".intercalate texts) = true := by
  induction texts with
  | nil => rfl
  | cons text texts ih =>
    rw [List.forall_mem_cons] at h
    cases texts with
    | nil => simpa using h.1
    | cons next texts =>
      rw [String.intercalate_cons_cons, isOneLine_append, isOneLine_append, h.1, ih h.2]
      rfl

/-- A number is written in one line. -/
theorem isOneLine_nat (n : Nat) : isOneLine (toString n) = true :=
  isOneLine_of_forall rfl (Effect.isDigit_toString n)

/-- What starts with a digit is flush. -/
theorem isFlush_of_digit (h : text.toList.head?.any Char.isDigit = true) : isFlush text = true := by
  unfold isFlush
  obtain ⟨c, hc, hdigit⟩ := (Option.any_eq_true _ _).1 h
  rw [hc]
  have hblank : c ≠ ' ' := by rintro rfl; cases hdigit
  have hbrace : c ≠ '\x7d' := by rintro rfl; cases hdigit
  simp [hblank, hbrace]

/-- A number starts with a digit. -/
theorem isFlush_nat (n : Nat) : isFlush (toString n) = true := by
  obtain ⟨c, more, hdigits, hc⟩ := Effect.exists_cons_toString n
  exact isFlush_of_digit (by rw [hdigits]; exact hc)

section Numbers

open Floating

/-- Whether a character can stand in the text of a number: in its digits or a word, as its point or as
a sign. -/
def isNumeral (c : Char) : Bool :=
  c.isAlphanum || c = '.' || c = '-'

/-- Digits are characters of a number. -/
theorem all_numeral_digits {text : List Char} (h : ∀ c ∈ text, c.isDigit = true) :
    text.all isNumeral = true := by
  rw [List.all_eq_true]
  intro c hc
  simp [isNumeral, Char.isAlphanum, h c hc]

/-- A natural number is written with characters of a number. -/
theorem all_numeral_nat (n : Nat) : (toString n).toList.all isNumeral = true :=
  all_numeral_digits (Effect.isDigit_toString n)

/-- A whole number is written with characters of a number, its sign among them. -/
theorem all_numeral_int (value : Int) : (toString value).toList.all isNumeral = true := by
  rw [Effect.toString_int]
  split
  · exact all_numeral_nat _
  · rw [String.toList_append, List.all_append, all_numeral_nat]
    rfl

/-- Zeros that fill a number up are characters of a number. -/
theorem all_numeral_repeated (n : Nat) : (repeated '0' n).toList.all isNumeral = true := by
  refine all_numeral_digits fun c hc => ?_
  rw [repeated, String.toList_ofList] at hc
  rw [List.eq_of_mem_replicate hc]
  rfl

/-- However the digits of a float are laid out, characters of a number come of it. -/
theorem all_numeral_layout (layout : Layout) (d : Decimal) :
    (layout.write d).toList.all isNumeral = true := by
  have hdigits := Effect.isDigit_toString d.digits
  have hall := all_numeral_digits hdigits
  unfold Layout.write
  dsimp only
  generalize toString d.digits = digits at hdigits hall ⊢
  split
  · rfl
  split
  · unfold pointed
    split
    · simp only [String.toList_append, List.all_append, all_numeral_repeated, hall]
      rfl
    · split
      · simp only [String.toList_append, List.all_append, all_numeral_repeated, hall]
        rfl
      · simp only [String.toList_append, String.toList_ofList, List.all_append,
          all_numeral_digits fun c hc => hdigits c (List.mem_of_mem_take hc),
          all_numeral_digits fun c hc => hdigits c (List.mem_of_mem_drop hc)]
        rfl
  · unfold scientific
    split
    · rfl
    · rename_i digit hcons
      rw [hcons] at hall
      simp only [String.toList_append, List.all_append, all_numeral_int, Char.toString,
        String.toList_singleton, hall]
      rfl
    · rename_i digit others _ hcons
      rw [hcons, List.all_cons, Bool.and_eq_true] at hall
      simp only [String.toList_append, String.toList_ofList, List.all_append, all_numeral_int,
        Char.toString, String.toList_singleton, List.all_cons, List.all_nil, hall]
      rfl

/-- A float is written with characters of a number. The names of infinities and of no number consist
of such too. -/
theorem all_numeral_write (f : Format) (value : Floating) :
    (f.write value).toList.all isNumeral = true := by
  unfold Format.write
  split
  · rfl
  · split <;> rfl
  · dsimp only
    rw [String.toList_append, List.all_append, all_numeral_layout]
    split <;> rfl

/-- A number of any type is written with characters of a number. -/
theorem all_numeral_number (number : Number) : number.target.toList.all isNumeral = true := by
  have hrender : number.render.toList.all isNumeral = true := by
    cases number with
    | integer type value => exact all_numeral_int value
    | single value =>
      rw [Number.render, String.toList_append, List.all_append, all_numeral_write]
      rfl
    | double value => exact all_numeral_write _ value
  have hsuffixed (value : Int) (suffix : String) (hsuffix : suffix.toList.all isNumeral = true) :
      (toString value ++ suffix).toList.all isNumeral = true := by
    rw [String.toList_append, List.all_append, all_numeral_int, hsuffix]
    rfl
  unfold Number.target
  split
  · exact hsuffixed _ "U" rfl
  · exact hsuffixed _ "ULL" rfl
  · exact hsuffixed _ "ULL" rfl
  · exact hrender

/-- What a number is written with stays on its line. -/
theorem isOneLine_of_numeral (h : text.toList.all isNumeral = true) : isOneLine text = true :=
  isOneLine_of_forall rfl (List.all_eq_true.1 h)

/-- A whole number is a solid text. -/
theorem isSolid_int (value : Int) : isSolid (toString value) = true := by
  rw [isSolid_iff]
  refine ⟨?_, isOneLine_of_numeral (all_numeral_int value)⟩
  rw [Effect.toString_int]
  split
  · exact isFlush_nat _
  · rw [isFlush_append]
    rfl

/-- A float is a solid text. -/
theorem isSolid_write (f : Format) (value : Floating) : isSolid (f.write value) = true := by
  unfold Format.write
  split
  · rfl
  · split <;> rfl
  · have hlayout : ∀ d, isSolid (Layout.literal.write d) = true := fun d =>
      isSolid_iff.2 ⟨isFlush_of_digit (Effect.isCalmText_layout _ d).2,
        isOneLine_of_numeral (all_numeral_layout _ d)⟩
    dsimp only
    split
    · rw [isSolid_iff, isFlush_append, isOneLine_append, (isSolid_iff.1 (hlayout _)).2]
      exact ⟨rfl, rfl⟩
    · rw [String.empty_append]
      exact hlayout _

/-- A number of any type is a solid text. -/
theorem isSolid_number (number : Number) : isSolid number.target = true := by
  have hrender : isSolid number.render = true := by
    cases number with
    | integer type value => exact isSolid_int value
    | single value => exact isSolid_append (isSolid_write _ value) rfl
    | double value => exact isSolid_write _ value
  unfold Number.target
  split
  · exact isSolid_append (isSolid_int _) rfl
  · exact isSolid_append (isSolid_int _) rfl
  · exact isSolid_append (isSolid_int _) rfl
  · exact hrender

end Numbers

/-- A character is escaped so that it stays on its line. In particular a line feed is written as two
characters. -/
theorem isOneLine_escape (quote c : Char) : isOneLine (escape quote c) = true := by
  have hhex : ∀ n < 16, Nat.digitChar n ≠ '\n' := by decide
  unfold escape
  repeat' split
  all_goals try rfl
  · rename_i hfeed _ _ _ _ _
    simp [isOneLine, hfeed]
  · rename_i hcontrol
    simp only [Bool.or_eq_true, decide_eq_true_eq] at hcontrol
    rw [isOneLine_append, hexPair]
    simp [isOneLine, hhex (c.toNat / 16) (by omega), hhex (c.toNat % 16) (by omega)]
  · rename_i hfeed _ _ _ _ _ _
    simp [isOneLine, hfeed]

/-- A character literal starts with its quote and has one line. -/
theorem isSolid_charLiteral (c : Char) : isSolid (charLiteral c) = true := by
  rw [charLiteral, isSolid_iff]
  simp only [isFlush_append, isOneLine_append, isOneLine_escape]
  exact ⟨rfl, rfl⟩

/-- A string literal starts with a name and has one line, whatever characters the string has. -/
theorem isSolid_stringLiteral (text : List Char) : isSolid (stringLiteral text) = true := by
  have hbody : isOneLine (String.join (text.map (escape '"'))) = true := by
    induction text with
    | nil => rfl
    | cons c text ih => rw [List.map_cons, String.join_cons, isOneLine_append, isOneLine_escape, ih]; rfl
  rw [stringLiteral, isSolid_iff]
  simp only [isFlush_append, isOneLine_append, hbody]
  exact ⟨rfl, rfl⟩

/-- A name starts a line and stays on it. -/
theorem isSolid_name {name : String} (h : Token.IsName name) : isSolid (Target.name name) = true := by
  have hparts := Effect.isNamePart_targetName h
  rw [isSolid_iff]
  refine ⟨?_, isOneLine_of_forall rfl hparts⟩
  obtain ⟨c, more, hcons⟩ : ∃ c more, (Target.name name).toList = c :: more := by
    obtain ⟨c, more, rfl, -⟩ := h.spelled
    refine List.exists_cons_of_ne_nil ?_
    unfold Target.name
    split <;> simp
  have hc := hparts c (by simp [hcons])
  have hblank : c ≠ ' ' := by rintro rfl; cases hc
  have hbrace : c ≠ '\x7d' := by rintro rfl; cases hc
  simp [isFlush, hcons, hblank, hbrace]

mutual
/-- A type starts with its name and has one line, by induction on the type. -/
theorem isSolid_type : (type : Ty) → isSolid type.target = true
  | .primitive p => by cases p <;> rfl
  | .array element (some size) => by
    have helement := (isSolid_iff.1 (isSolid_type element)).2
    rw [Ty.target, isSolid_iff]
    simp only [isFlush_append, isOneLine_append, helement, isOneLine_nat]
    exact ⟨rfl, rfl⟩
  | .array element none => by
    have helement := (isSolid_iff.1 (isSolid_type element)).2
    rw [Ty.target, isSolid_iff]
    simp only [isFlush_append, isOneLine_append, helement]
    exact ⟨rfl, rfl⟩
  | .tuple items => by
    have hitems := isOneLine_intercalate (isOneLine_types items)
    rw [Ty.target, isSolid_iff]
    simp only [isFlush_append, isOneLine_append, hitems]
    exact ⟨rfl, rfl⟩
  | .null => rfl
/-- The types in a tuple have one line each. -/
theorem isOneLine_types : (items : List Ty) → ∀ text ∈ Ty.targetAll items, isOneLine text = true
  | [] => by simp [Ty.targetAll]
  | item :: items => by
    rw [Ty.targetAll, List.forall_mem_cons]
    exact ⟨(isSolid_iff.1 (isSolid_type item)).2, isOneLine_types items⟩
end

end Target

section Values

open Target

variable {scopes : Scopes} {e : Expr} {typed inner left right receiver : Typed} {p : Position}

/-- An operand stays solid with parentheses around it. -/
theorem Typed.isSolid_operand (h : isSolid typed.text = true) (precedence : Nat) :
    isSolid (typed.operand precedence) = true := by
  unfold operand
  split
  · simp only [isSolid_iff, isFlush_append, isOneLine_append, (isSolid_iff.1 h).2]
    exact ⟨rfl, rfl⟩
  · exact h

/-- Arguments that are solid make one line. -/
theorem Typed.isOneLine_argumentText {args : List Typed}
    (h : ∀ arg ∈ args, isSolid arg.text = true) : isOneLine (argumentText args) = true := by
  refine isOneLine_intercalate fun text htext => ?_
  obtain ⟨arg, harg, rfl⟩ := List.mem_map.1 htext
  exact (isSolid_iff.1 (h arg harg)).2

/-- Every builtin is called by a text that starts a line. -/
theorem Builtin.isSolid_target : ∀ b ∈ Builtin.all, isSolid b.target = true := by
  decide

/-- A call starts a line if what is called does. -/
theorem Typed.isSolid_call {callee : String} {args : List Typed} (hcallee : isSolid callee = true)
    (hargs : ∀ arg ∈ args, isSolid arg.text = true) :
    isSolid (callee ++ "(" ++ argumentText args ++ ")") = true := by
  refine isSolid_append (isSolid_append (isSolid_append hcallee rfl) ?_) rfl
  exact isOneLine_argumentText hargs

/-- An element starts with what it is an element of. -/
theorem Typed.isSolid_elementAt {offset : Typed} (hreceiver : isSolid receiver.text = true)
    (hoffset : isSolid offset.text = true)
    (h : (elementAt receiver offset p).outcome = .ok typed) : isSolid typed.text = true := by
  obtain ⟨htext, -⟩ := elementAt_eq_ok h
  rw [htext]
  exact isSolid_append (isSolid_append (isSolid_append (isSolid_operand hreceiver _) rfl)
    (isSolid_iff.1 hoffset).2) rfl

/-- A call of a method is solid, whether its receiver comes first or is an argument. -/
theorem Typed.isSolid_callMethod {name : String} {args : List Typed}
    (hreceiver : isSolid receiver.text = true) (hargs : ∀ arg ∈ args, isSolid arg.text = true)
    (h : (callMethod receiver name args p).outcome = .ok typed) : isSolid typed.text = true := by
  rcases eq_of_callMethod h with ⟨offset, -, rfl, helement⟩ | ⟨-, resolved, hresolved, -, rfl⟩
  · exact isSolid_elementAt hreceiver (hargs offset (by simp)) helement
  · obtain ⟨b, hb, -, -, htarget, -⟩ := Signature.exists_builtin_of_resolve hresolved
    have hmember := (isSolid_iff.1 (Builtin.isSolid_target b hb)).2
    rw [← htarget] at hmember
    exact isSolid_call (isSolid_append (isSolid_append (isSolid_operand hreceiver _) rfl) hmember)
      hargs

/-- A conversion starts with a word or with the text of its argument. -/
theorem Typed.isSolid_convert {target : Primitive} {args : List Typed}
    (hargs : ∀ arg ∈ args, isSolid arg.text = true)
    (h : (convert target args p).outcome = .ok typed) : isSolid typed.text = true := by
  obtain ⟨resolved, hresolved, rfl⟩ := eq_of_convert h
  refine isSolid_call ?_ hargs
  obtain ⟨source, -, -, -, rfl⟩ := Primitive.eq_of_resolveConversion hresolved
  cases target <;> rfl

/-- What has a sign in front of it starts with the sign. -/
theorem Typed.isSolid_applyUnary {op : UnaryOp} (hinner : isSolid inner.text = true)
    (h : (applyUnary op inner p).outcome = .ok typed) : isSolid typed.text = true := by
  obtain ⟨-, rfl⟩ := eq_of_applyUnary h
  have hoperand := (isSolid_iff.1 (isSolid_operand hinner unaryPrecedence)).2
  refine isSolid_append (by cases op <;> rfl) ?_
  split
  · simp only [isOneLine_append, hoperand]
    rfl
  · exact hoperand

/-- A step starts with the sign or with its place. -/
theorem Typed.isSolid_applyStep {op : StepOp} {after : Bool} (hinner : isSolid inner.text = true)
    (h : (applyStep op after inner p).outcome = .ok typed) : isSolid typed.text = true := by
  obtain ⟨-, -, -, rfl⟩ := eq_of_applyStep h
  cases after with
  | true => exact isSolid_append hinner (by cases op <;> rfl)
  | false => exact isSolid_append (by cases op <;> rfl) (isSolid_iff.1 hinner).2

/-- What an operator joins starts with its left operand or with the name of a function. -/
theorem Typed.isSolid_applyBinary {op : BinaryOp} (hleft : isSolid left.text = true)
    (hright : isSolid right.text = true)
    (h : (applyBinary op left right p).outcome = .ok typed) : isSolid typed.text = true := by
  obtain ⟨type, -, rfl⟩ := eq_of_applyBinary h
  have hline := (isSolid_iff.1 hleft).2
  have hline' := (isSolid_iff.1 hright).2
  unfold binaryText
  split
  · simp only [isSolid_iff, isFlush_append, isOneLine_append, hline, hline']
    exact ⟨rfl, rfl⟩
  · dsimp only
    split <;> simp only [isSolid_iff, isFlush_append, isOneLine_append, hline, hline'] <;>
      exact ⟨rfl, rfl⟩
  · have hsymbol : isOneLine op.symbol = true := by
      rcases op with op | op | op <;> cases op <;> rfl
    have hsecond := (isSolid_iff.1 (isSolid_operand hright (op.precedence + 1))).2
    exact isSolid_append (isSolid_append (isSolid_append (isSolid_append
      (isSolid_operand hleft _) rfl) hsymbol) rfl) hsecond

/-- A literal is a solid text. -/
theorem Typed.isSolid_ofLiteral {literal : Literal}
    (h : (ofLiteral literal p).outcome = .ok typed) : isSolid typed.text = true := by
  rcases eq_of_ofLiteral h with ⟨value, -, rfl⟩ | ⟨value, -, -, rfl⟩ | ⟨value, -, rfl⟩
  · cases value with
    | true => exact (by rfl : isSolid "true" = true)
    | false => exact (by rfl : isSolid "false" = true)
  · exact isSolid_charLiteral _
  · exact isSolid_stringLiteral _

/-- The text of a value starts a line and stays on it, by induction on the expression: line feeds
are escaped, and every step starts with a text of its operands, a sign or a word. -/
theorem Expr.isSolid_of_value (hspelled : e.WellSpelled)
    (h : (e.value scopes).outcome = .ok typed) : isSolid typed.text = true := by
  induction e using Expr.inductionOnChildren generalizing typed with
  | step e ih =>
    have hvalue : ∀ part ∈ e.children, ∀ typed, (part.value scopes).outcome = .ok typed →
        isSolid typed.text = true :=
      fun part hpart typed h => ih part hpart (hspelled.child hpart) h
    cases ValueStep.of_value h with
    | number hnumber =>
      obtain ⟨_, rfl⟩ := Typed.eq_of_ofNumber hnumber
      exact isSolid_number _
    | literal hliteral => exact Typed.isSolid_ofLiteral hliteral
    | ident hname =>
      obtain ⟨symbol, -, rfl⟩ := Typed.eq_of_ofName hname
      exact isSolid_name (hspelled _ .self)
    | call hargs hcall =>
      obtain ⟨resolved, hresolved, rfl⟩ := Typed.eq_of_callFunction hcall
      obtain ⟨b, hb, -, -, htarget, -⟩ := Signature.exists_builtin_of_resolve hresolved
      exact Typed.isSolid_call (htarget ▸ Builtin.isSolid_target b hb) (forall_values hvalue hargs)
    | index hwhole hselected helement =>
      exact Typed.isSolid_elementAt (hvalue _ (by simp [Expr.children]) _ hwhole)
        (hvalue _ (by simp [Expr.children]) _ hselected) helement
    | method hwhole hargs hcall =>
      rw [Expr.children, List.forall_mem_cons] at hvalue
      exact Typed.isSolid_callMethod (hvalue.1 _ hwhole) (forall_values hvalue.2 hargs) hcall
    | convert hargs hconvert =>
      rw [Expr.children, List.reduceOption_nil, List.append_nil] at hvalue
      exact Typed.isSolid_convert (forall_values hvalue hargs) hconvert
    | unary hinner hunary =>
      exact Typed.isSolid_applyUnary (hvalue _ (by simp [Expr.children]) _ hinner) hunary
    | stepBefore hinner hstep | stepAfter hinner hstep =>
      exact Typed.isSolid_applyStep (hvalue _ (by simp [Expr.children]) _ hinner) hstep
    | binary hfirst hsecond hbinary =>
      exact Typed.isSolid_applyBinary (hvalue _ (by simp [Expr.children]) _ hfirst)
        (hvalue _ (by simp [Expr.children]) _ hsecond) hbinary

/-- A conversion starts a line if what is converted does. -/
theorem Typed.isSolid_converted {type : Ty} {text : String} (htyped : isSolid typed.text = true)
    (h : (typed.converted type p).outcome = .ok text) : isSolid text = true := by
  rcases converted_eq_ok h with rfl | rfl
  · exact htyped
  · simp only [isSolid_iff, isFlush_append, isOneLine_append, (isSolid_iff.1 htyped).2,
      (isSolid_iff.1 (isSolid_type type)).2]
    exact ⟨rfl, rfl⟩

/-- The elements of an array have one line each, if they are solid. -/
theorem Expr.isOneLine_of_elementTexts {element : Ty} {es : List Expr} {texts : List String}
    (hinitial : ∀ e ∈ es, ∀ typed, (e.initializer scopes (some element)).outcome = .ok typed →
      isSolid typed.text = true)
    (h : (Expr.elementTexts scopes element es).outcome = .ok texts) :
    ∀ text ∈ texts, isOneLine text = true := by
  induction es generalizing texts with
  | nil =>
    cases h
    simp
  | cons e es ih =>
    rw [List.forall_mem_cons] at hinitial
    simp only [Expr.elementTexts, Checked.outcome_bind_eq_ok_iff] at h
    obtain ⟨typed, htyped, text, htext, others, hothers, heq⟩ := h
    cases heq
    rw [List.forall_mem_cons]
    have hfirst := Typed.isSolid_converted (hinitial.1 _ htyped) htext
    exact ⟨(isSolid_iff.1 hfirst).2, ih hinitial.2 hothers⟩

/-- The text of what stands behind an equal sign starts a line, and stays on it, too. -/
theorem Expr.isSolid_of_initializer {target : Option Ty} (hspelled : e.WellSpelled)
    (h : (e.initializer scopes target).outcome = .ok typed) : isSolid typed.text = true := by
  induction e using Expr.inductionOnChildren generalizing typed target with
  | step e ih =>
    cases e with
    | null p =>
      unfold Expr.initializer at h
      split at h
      · cases h
        rfl
      · simp at h
    | array elements p =>
      obtain ⟨element, type, texts, -, htexts, rfl⟩ := Expr.eq_of_initializer_array h
      have hinner := isOneLine_intercalate (isOneLine_of_elementTexts
        (fun e he typed h => ih e he (hspelled.child he) h) htexts)
      simp only [isSolid_iff, isFlush_append, isOneLine_append, hinner]
      exact ⟨rfl, rfl⟩
    | _ =>
      have hvalue : (Expr.value scopes _).outcome = .ok typed := h
      exact isSolid_of_value hspelled hvalue

end Values

end Sprout
