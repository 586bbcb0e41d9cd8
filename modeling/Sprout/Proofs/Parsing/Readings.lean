import Sprout.Expr.Parser

namespace Sprout.Expr

/-- What a reading comes to: its value and the tokens it leaves over, or the defect. The proof that
its loop ends, which the readers carry along, is left out. -/
def seen {α : Type} {bound : Nat} (reading : Reading α bound) :
    Except (Defect Malformed) (α × List Token) :=
  reading.map fun taken => (taken.value, taken.rest)

/-- The kind of the first token of a run. -/
def headKind (ts : List Token) : Option Token.Kind :=
  ts.head?.map Token.kind

@[simp] theorem headKind_nil : headKind [] = none := rfl

@[simp] theorem headKind_cons (t : Token) (ts : List Token) : headKind (t :: ts) = some t.kind := rfl

namespace Taken

variable {α : Type} {n : Nat}

@[simp] theorem keep_value (value : α) (ts : List Token) : (keep value ts).value = value := rfl

@[simp] theorem keep_rest (value : α) (ts : List Token) : (keep value ts).rest = ts := rfl

@[simp] theorem behind_value (taken : Taken α n) : taken.behind.value = taken.value := rfl

@[simp] theorem behind_rest (taken : Taken α n) : taken.behind.rest = taken.rest := rfl

end Taken

section Bind

variable {α β : Type} {m n : Nat}

@[simp] theorem seen_ok (taken : Taken α n) : seen (.ok taken) = .ok (taken.value, taken.rest) := rfl

@[simp] theorem seen_error (defect : Defect Malformed) :
    seen (.error defect : Reading α n) = .error defect := rfl

/-- A reading that goes on with another one is seen as the first and what is seen of the second. -/
theorem seen_bind {reading : Reading α m} {next : Taken α m → Reading β n}
    {g : α × List Token → Except (Defect Malformed) (β × List Token)}
    (h : ∀ taken, seen (next taken) = g (taken.value, taken.rest)) :
    seen (reading >>= next) = seen reading >>= g := by
  cases reading with
  | error defect => rfl
  | ok taken => exact h taken

end Bind

section Lists

variable (read : ExpressionReader)

/-- An expected token is taken if it is there, and the defect is reported otherwise. -/
theorem expect_eq (kind : Token.Kind) (defect : Defect Malformed) (ts : List Token) :
    (headKind ts = some kind ∧ ∃ closing, expect kind defect ts = .ok closing ∧
      closing.rest = ts.tail) ∨
    (headKind ts ≠ some kind ∧ expect kind defect ts = .error defect) := by
  cases ts with
  | nil => exact .inr ⟨by simp, rfl⟩
  | cons t rest =>
    by_cases hkind : t.kind = kind
    · exact .inl ⟨by simp [hkind], _, by simp only [expect, if_pos hkind]; rfl, rfl⟩
    · exact .inr ⟨by simp [hkind], by simp [expect, hkind]⟩

@[simp] theorem seen_listTail_nil : seen (listTail read []) = .ok ([], []) := by
  rw [listTail]
  rfl

/-- A list is one expression and whatever stands behind commas. -/
theorem seen_list (ts : List Token) :
    seen (list read ts) = do
      let (head, rest) ← seen (read 0 ts)
      let (tail, rest) ← seen (listTail read rest)
      return (head :: tail, rest) :=
  seen_bind fun _ => seen_bind fun _ => rfl

/-- Behind a comma, the rest of a list is a list itself. -/
theorem seen_listTail_cons (t : Token) (rest : List Token) :
    seen (listTail read (t :: rest)) =
      if t.kind = .comma then seen (list read rest) else .ok ([], t :: rest) := by
  rw [listTail, seen_list]
  split
  · exact seen_bind fun head => seen_bind fun tail => rfl
  · rfl

/-- Anything but a comma ends a list. -/
theorem seen_listTail_other {ts : List Token} (h : headKind ts ≠ some .comma) :
    seen (listTail read ts) = .ok ([], ts) := by
  cases ts with
  | nil => exact seen_listTail_nil read
  | cons t rest => rw [seen_listTail_cons, if_neg (by simpa using h)]

/-- A first result and the closing bracket behind it. -/
theorem seen_closing {α : Type} {n : Nat} (close : Token.Kind) (defect : Defect Malformed)
    (first : Taken α n) :
    seen (do
      let closing ← expect close defect first.rest
      .ok (first.upTo (closing.map fun _ => first.value))) =
      if headKind first.rest = some close then .ok (first.value, first.rest.tail)
      else .error defect := by
  obtain ⟨hhead, closing, hclosing, hrest⟩ | ⟨hhead, hclosing⟩ := expect_eq close defect first.rest
  · rw [hclosing, if_pos hhead, ← hrest]
    rfl
  · rw [hclosing, if_neg hhead]
    rfl

/-- An expression up to its closing bracket is read, and the bracket must be there. -/
theorem seen_closed (close : Token.Kind) (defect : Defect Malformed) (ts : List Token) :
    seen (closed read close defect ts) =
      seen (read 0 ts) >>= fun (inner, rest) =>
        if headKind rest = some close then .ok (inner, rest.tail) else .error defect :=
  seen_bind (seen_closing close defect)

/-- A list between brackets may be empty. Otherwise it is read up to its closing bracket. -/
theorem seen_enclosed (close : Token.Kind) (defect : Defect Malformed) (ts : List Token) :
    seen (enclosed read close defect ts) =
      if headKind ts = some close then .ok ([], ts.tail)
      else seen (list read ts) >>= fun (items, rest) =>
        if headKind rest = some close then .ok (items, rest.tail) else .error defect := by
  rw [enclosed]
  obtain ⟨hhead, closing, hclosing, hrest⟩ | ⟨hhead, hclosing⟩ := expect_eq close defect ts
  · rw [hclosing, if_pos hhead, ← hrest]
    rfl
  · rw [hclosing, if_neg hhead]
    exact seen_bind (seen_closing close defect)

end Lists

section Brackets

variable (read : ExpressionReader)

/-- An index is an expression between brackets. It may not be left out. -/
theorem seen_offset (opening : Token) (ts : List Token) :
    seen (offset read opening ts) =
      if headKind ts = some .closeBracket then .error (opening.defect .missingIndex)
      else seen (closed read .closeBracket (opening.defect .unclosedIndex) ts) := by
  rw [offset]
  exact apply_ite seen _ _ _

@[simp] theorem seen_indexes_nil (receiver : Expr) :
    seen (indexes read receiver []) = .ok (receiver, []) := by
  rw [indexes]
  rfl

/-- Indexes are read as long as brackets are opened, each for what has been read so far. -/
theorem seen_indexes_cons (receiver : Expr) (opening : Token) (rest : List Token) :
    seen (indexes read receiver (opening :: rest)) =
      if opening.kind = .openBracket then do
        let (first, rest) ← seen (offset read opening rest)
        seen (indexes read (.index receiver first) rest)
      else .ok (receiver, opening :: rest) := by
  rw [indexes]
  split
  · refine seen_bind fun first => ?_
    exact (seen_bind fun _ => rfl).trans (bind_pure _)
  · rfl

/-- Anything but an opening bracket ends the indexes. -/
theorem seen_indexes_other (receiver : Expr) {ts : List Token}
    (h : headKind ts ≠ some .openBracket) : seen (indexes read receiver ts) = .ok (receiver, ts) := by
  cases ts with
  | nil => exact seen_indexes_nil read receiver
  | cons opening rest => rw [seen_indexes_cons, if_neg (by simpa using h)]

/-- The size of a dimension is an expression between brackets, and may be left out. -/
theorem seen_size (opening : Token) (ts : List Token) :
    seen (size? read opening ts) =
      if headKind ts = some .closeBracket then .ok (none, ts.tail)
      else do
        let (size, rest) ← seen (closed read .closeBracket (opening.defect .unclosedIndex) ts)
        return (some size, rest) := by
  rw [size?]
  obtain ⟨hhead, closing, hclosing, hrest⟩ | ⟨hhead, hclosing⟩ :=
    expect_eq .closeBracket (opening.defect .unclosedIndex) ts
  · rw [hclosing, if_pos hhead, ← hrest]
    rfl
  · rw [hclosing, if_neg hhead]
    exact seen_bind fun _ => rfl

@[simp] theorem seen_dimensions_nil : seen (dimensions read []) = .ok ([], []) := by
  rw [dimensions]
  rfl

/-- Dimensions are read as long as brackets are opened. -/
theorem seen_dimensions_cons (opening : Token) (rest : List Token) :
    seen (dimensions read (opening :: rest)) =
      if opening.kind = .openBracket then do
        let (first, rest) ← seen (size? read opening rest)
        let (others, rest) ← seen (dimensions read rest)
        return (first :: others, rest)
      else .ok ([], opening :: rest) := by
  rw [dimensions]
  split
  · exact seen_bind fun first => seen_bind fun others => rfl
  · rfl

/-- Anything but an opening bracket ends the dimensions. -/
theorem seen_dimensions_other {ts : List Token} (h : headKind ts ≠ some .openBracket) :
    seen (dimensions read ts) = .ok ([], ts) := by
  cases ts with
  | nil => exact seen_dimensions_nil read
  | cons opening rest => rw [seen_dimensions_cons, if_neg (by simpa using h)]

@[simp] theorem seen_arguments_nil : seen (arguments? read []) = .ok (none, []) := rfl

/-- Arguments are read if a parenthesis is opened. -/
theorem seen_arguments_cons (opening : Token) (rest : List Token) :
    seen (arguments? read (opening :: rest)) =
      if opening.kind = .openParen then do
        let (args, rest) ← seen (enclosed read .closeParen (opening.defect .unclosedArguments) rest)
        return (some args, rest)
      else .ok (none, opening :: rest) := by
  simp only [arguments?]
  split
  · exact seen_bind fun _ => rfl
  · rfl

/-- Without an opening parenthesis there are no arguments. -/
theorem seen_arguments_other {ts : List Token} (h : headKind ts ≠ some .openParen) :
    seen (arguments? read ts) = .ok (none, ts) := by
  cases ts with
  | nil => rfl
  | cons opening rest => rw [seen_arguments_cons, if_neg (by simpa using h)]

end Brackets

variable (ending : Defect Malformed)

@[simp] theorem seen_member_nil (deeper : Option LinkReader) (receiver : Expr) :
    seen (member ending deeper receiver []) = .ok (receiver, []) := rfl

/-- Anything but a point ends a chain of members. -/
theorem seen_member_other (deeper : Option LinkReader) (receiver : Expr) {ts : List Token}
    (hpoint : headKind ts ≠ some .dot) : seen (member ending deeper receiver ts) = .ok (receiver, ts) := by
  cases ts with
  | nil => rfl
  | cons point rest =>
    simp only [member, if_neg (show ¬ point.kind = .dot by simpa using hpoint)]
    rfl

/-- A dot is followed by a name, and that by its arguments and indexes one level deeper, if there
are levels left. -/
theorem seen_member_name (deeper : Option LinkReader) (receiver : Expr) {point : Token}
    (hpoint : point.kind = .dot) (name : Token) (rest : List Token) :
    seen (member ending deeper receiver (point :: name :: rest)) =
      if name.kind = .identifier then
        match deeper with
        | none => .error (name.defect .tooDeep)
        | some link =>
          seen (link (.field receiver name.lexeme name.position)
            (.method receiver name.lexeme · name.position) rest)
      else .error (name.defect .missingMember) := by
  simp only [member, if_pos hpoint]
  split
  · cases deeper with
    | none => rfl
    | some link => exact (seen_bind fun _ => rfl).trans (bind_pure _)
  · rfl

/-- A link of a chain is a name with arguments or none, then indexes, then the next link. -/
theorem seen_linkWith (read : ExpressionReader) (deeper : Option LinkReader) (bare : Expr)
    (called : List Expr → Expr) (ts : List Token) :
    seen (linkWith ending read deeper bare called ts) =
      seen (arguments? read ts) >>= fun (args, rest) =>
        seen (indexes read (args.elim bare called) rest) >>= fun (indexed, rest) =>
          seen (member ending deeper indexed rest) := by
  refine seen_bind fun args => seen_bind fun indexed => ?_
  exact (seen_bind fun _ => rfl).trans (bind_pure _)

/-- Anything but a step leaves an operand as it is. -/
theorem stepsAfter_other (e : Expr) {ts : List Token} (h : ∀ op, headKind ts ≠ some (.step op)) :
    stepsAfter e ts = .keep e ts := by
  cases ts with
  | nil => rfl
  | cons t rest =>
    rw [stepsAfter]
    split
    · rename_i op hkind
      exact absurd (by rw [headKind_cons, hkind]) (h op)
    · rfl

/-- A step behind an operand is applied to what has been read so far. -/
theorem stepsAfter_step (e : Expr) {t : Token} {op : StepOp} (ht : t.kind = .step op)
    (rest : List Token) :
    stepsAfter e (t :: rest) = (stepsAfter (.stepAfter op e t.position) rest).behind := by
  simp only [stepsAfter, ht]

/-- A name is the start of a chain of links. -/
theorem seen_operand_identifier (below : Level) {t : Token} (hkind : t.kind = .identifier)
    (rest : List Token) :
    seen (operand below t rest) =
      seen (below.link (.ident t.lexeme t.position) (.call t.lexeme · t.position) rest) := by
  simp only [operand, hkind]

/-- The word for a type is a type name with dimensions, and with arguments a conversion. -/
theorem seen_operand_type (below : Level) {t : Token} {name : Primitive}
    (hkind : t.kind = .type name) (rest : List Token) :
    seen (operand below t rest) = do
      let (sizes, rest) ← seen (dimensions below.expression rest)
      let (args, rest) ← seen (arguments? below.expression rest)
      return (args.elim (typeName name sizes t.position) (convert name sizes · t.position), rest) := by
  simp only [operand, hkind]
  refine seen_bind fun sizes => ?_
  exact seen_bind fun args => rfl

/-- An expression between parentheses is that expression. -/
theorem seen_operand_parenthesis (below : Level) {t : Token} (hkind : t.kind = .openParen)
    (rest : List Token) :
    seen (operand below t rest) =
      seen (closed below.expression .closeParen (t.defect .unclosedParenthesis) rest) := by
  simp only [operand, hkind]
  exact (seen_bind fun _ => rfl).trans (bind_pure _)

/-- Expressions between brackets are the elements of an array. -/
theorem seen_operand_bracket (below : Level) {t : Token} (hkind : t.kind = .openBracket)
    (rest : List Token) :
    seen (operand below t rest) = do
      let (es, rest) ← seen (enclosed below.expression .closeBracket (t.defect .unclosedArray) rest)
      return (.array es t.position, rest) := by
  simp only [operand, hkind]
  exact seen_bind fun _ => rfl

/-- A sign is applied to the operand behind it, one level deeper. -/
theorem seen_unaryOperand_leading (below : Level) {t : Token} {build : Expr → Position → Expr}
    (hlead : leading? t.kind = some build) (rest : List Token) :
    seen (unaryOperand ending below (t :: rest)) = do
      let (inner, rest) ← seen (below.expression unaryPrecedence rest)
      return (build inner t.position, rest) := by
  rw [unaryOperand, hlead]
  exact seen_bind fun _ => rfl

/-- An operand without a sign is read, and the steps behind it are applied. -/
theorem seen_unaryOperand_other (below : Level) {t : Token} (hlead : leading? t.kind = none)
    (rest : List Token) :
    seen (unaryOperand ending below (t :: rest)) = do
      let (inner, rest) ← seen (operand below t rest)
      return ((stepsAfter inner rest).value, (stepsAfter inner rest).rest) := by
  rw [unaryOperand, hlead]
  exact seen_bind fun _ => rfl

/-- Operators that do not bind tighter than the floor are left over. -/
theorem seen_binaryTail_stop (read : ExpressionReader) {floor : Nat} (left : Expr) {ts : List Token}
    (hstop : ∀ op, headKind ts = some (.operator op) → op.precedence ≤ floor) :
    seen (binaryTail read floor left ts) = .ok (left, ts) := by
  rw [binaryTail.eq_def]
  split
  · rfl
  · split
    · rename_i t rest op hkind
      rw [if_pos (hstop op (by rw [headKind_cons, hkind]))]
      rfl
    · rfl

/-- An operator that binds tighter than the floor takes the operand behind it, and reading goes on
with what they make. -/
theorem seen_binaryTail_operator (read : ExpressionReader) {floor : Nat} (left : Expr) {t : Token}
    {op : BinaryOp} (hkind : t.kind = .operator op) (hfloor : floor < op.precedence)
    (rest : List Token) :
    seen (binaryTail read floor left (t :: rest)) =
      seen (read op.precedence rest) >>= fun (right, rest) =>
        seen (binaryTail read floor (.binary op left right t.position) rest) := by
  rw [binaryTail.eq_def]
  simp only
  split
  · rename_i found hfound
    cases hkind.symm.trans hfound
    rw [if_neg (by omega)]
    refine seen_bind fun right => ?_
    exact (seen_bind fun _ => rfl).trans (bind_pure _)
  · rename_i hnone
    exact absurd hkind (hnone op)

/-- An expression is an operand and the operators behind it. -/
theorem seen_expressionWith (below : Level) (floor : Nat) (ts : List Token) :
    seen (expressionWith ending below floor ts) =
      seen (unaryOperand ending below ts) >>= fun (left, rest) =>
        seen (binaryTail below.expression floor left rest) := by
  refine seen_bind fun left => ?_
  exact (seen_bind fun _ => rfl).trans (bind_pure _)

/-- A run is one expression if reading it leaves nothing over. -/
theorem parse_eq (run : List Token) :
    parse run = seen ((readers run).expression 0 (body run)) >>= fun (e, rest) =>
      match rest with
      | [] => .ok e
      | t :: _ => .error (t.defect (.trailing t.lexeme)) := by
  rw [parse]
  cases (readers run).expression 0 (body run) with
  | error defect => rfl
  | ok taken => rfl

end Sprout.Expr
