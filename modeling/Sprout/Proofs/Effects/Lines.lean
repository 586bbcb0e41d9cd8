import Sprout.Proofs.Effects.Values
import Sprout.Proofs.Nulls

namespace Sprout

namespace Effect

/-- The number of times that lines of the generated program have the effect. -/
def inLines (E : Effect) (lines : List Line) : Nat :=
  (lines.map fun line => E.inText line.text).sum

variable {E : Effect} {scopes : Scopes} {e : Expr} {n k : Nat} {p : Position} {lines : List Line}

@[simp] theorem inLines_nil : E.inLines [] = 0 := rfl

@[simp] theorem inLines_cons (line : Line) :
    E.inLines (line :: lines) = E.inText line.text + E.inLines lines := rfl

@[simp] theorem inLines_append (more : List Line) :
    E.inLines (lines ++ more) = E.inLines lines + E.inLines more := by
  simp [inLines]

/-- Lines that belong to the members of a list have the effects that these call for, taken
together. -/
theorem inLines_of_forall₂ {α : Type} {R : α → Line → Prop} {as : List α} (count : α → Nat)
    (h : List.Forall₂ R as lines) (hcount : ∀ a ∈ as, ∀ l, R a l → E.inText l.text = count a) :
    E.inLines lines = (as.map count).sum := by
  induction h with
  | nil => rfl
  | cons hfirst _ ih =>
    rw [List.forall_mem_cons] at hcount
    rw [inLines_cons, hcount.1 _ hfirst, ih hcount.2, List.map_cons, List.sum_cons]

/-- What is emitted goes in front of the earlier lines, and has the effects of its lines. -/
theorem exists_lines_of_emit (E : Effect) (emission : Emission) (lines : List Line) :
    ∃ new, (emission.emit lines).lines = new ++ emission.lines ∧ E.inLines new = E.inLines lines := by
  refine ⟨_, rfl, ?_⟩
  simp [inLines, Function.comp_def]

/-- A text that adds effects wherever it stands has as many by itself. -/
theorem Adds.inText_eq {text : String} (h : Adds E text.toList n) : E.inText text = n := by
  obtain ⟨m, -, hreads⟩ := h
  rw [inText, hreads]

/-- A semicolon adds no effect. -/
theorem Adds.ended {text : List Char} (h : Adds E text n) : Adds E (text ++ [';']) n := by
  have hend : Adds E [';'] 0 := .of_isCalmText rfl
  exact h.mark rfl hend

/-- Two texts with a comma between them add their effects. -/
theorem Adds.pair {left right : String} (h : Adds E left.toList n) (h' : Adds E right.toList k) :
    Adds E (left ++ ", " ++ right).toList (n + k) := by
  simpa using h.comma h'

/-- Both sides of an assignment add their effects. -/
theorem Adds.assigned {left right : String} (h : Adds E left.toList n) (h' : Adds E right.toList k) :
    Adds E (left ++ " = " ++ right ++ ";").toList (n + k) := by
  have hsign : E.reads (.word []) ('=' :: ([] ++ [' '])) = (.word [], 0) := rfl
  simpa using (h.signed rfl hsign h').ended

/-- Both sides of a compound assignment add their effects. Its sign is no step. -/
theorem Adds.compound {left right : String} (op : Arithmetic) (h : Adds E left.toList n)
    (h' : Adds E right.toList k) :
    Adds E (left ++ " " ++ (op.symbol ++ "=") ++ " " ++ right ++ ";").toList (n + k) := by
  have hsymbol : ∃ c, op.symbol.toList = [c] ∧ isMark c = true ∧
      E.reads (.word []) (c :: (['='] ++ [' '])) = (.word [], 0) := by
    cases op <;> exact ⟨_, rfl, rfl, rfl⟩
  obtain ⟨c, hsymbol, hc, hreads⟩ := hsymbol
  simpa [hsymbol] using (h.signed hc hreads h').ended

/-- What a line that declares a name starts with. -/
theorem isCalmText_declared (type : Ty) {name : Token} (hname : Token.IsName name.lexeme) :
    isCalmText (type.target ++ " " ++ Target.name name.lexeme).toList = true := by
  simp only [String.toList_append]
  exact isCalmText_append (isCalmText_append (isCalmText_target type) (by rfl))
    (isCalmText_of_isNamePart (isNamePart_targetName hname))

/-- The declaration of a variable without a value has no effect. -/
theorem inText_defaultLine (type : Ty) {name : Token} (hname : Token.IsName name.lexeme) :
    E.inText (Declaration.defaultLine type name).text = 0 := by
  refine Adds.inText_eq (.of_isCalmText ?_)
  rw [Declaration.defaultLine, Line.flat, String.toList_append]
  exact isCalmText_append (isCalmText_declared type hname) (by rfl)

/-- A member of the temporary that holds several values. -/
theorem spells_member (E : Effect) (index : Nat) :
    Spells E ("std::get<" ++ toString index ++ ">(" ++ Target.temporary ++ ")") 0 := by
  have hword : E.reads (.word []) "std::get<".toList = (.word [], 0) := by
    rcases E with (_ | _) | _ | _ | _ | _ <;> rfl
  obtain ⟨m, hm, hindex⟩ :=
    reads_of_isCalmText (E := E) (m := .word []) rfl (isCalmText_nat index)
  have hclosing : E.reads m ['>', '('] = (.word [], 0) := by
    rw [reads_mark hm rfl]
    rcases E with (_ | _) | _ | _ | _ | _ <;> rfl
  have hcallee : E.reads (.word []) ("std::get<" ++ toString index ++ ">" ++ "(").toList =
      (.word [], 0) := by
    simpa using reads_append (reads_append hword hindex) hclosing
  have htemporary : Adds E Target.temporary.toList 0 := .of_isCalmText (by rfl)
  exact ⟨by simp, by simpa [String.append_assoc] using Adds.call hcallee htemporary⟩

variable {call : Typed} {members : List Ty} {targets : List (String × Ty)}

/-- The members of a call are assigned to as many targets, each of which is written once. -/
theorem inLines_memberLines {index : Nat} (hlength : targets.length = members.length)
    (htargets : ∀ t ∈ targets, Adds E t.1.toList (E.inText t.1))
    (h : (memberLines p index targets members).outcome = .ok lines) :
    E.inLines lines = (targets.map fun t => E.inText t.1).sum := by
  have htotal := inLines_of_forall₂ (E := E) (fun entry => E.inText entry.1.1)
    (forall₂_of_memberLines h) fun entry hentry l hline => by
      obtain ⟨index, text, htext, rfl⟩ := hline
      have hright := (spells_member E index).converted htext
      exact ((htargets _ (List.of_mem_zip hentry).1).assigned hright.adds).inText_eq
  calc E.inLines lines
      = (((targets.zip members).map Prod.fst).map fun t => E.inText t.1).sum := by
        rw [htotal, List.map_map]
        rfl
    _ = (targets.map fun t => E.inText t.1).sum := by rw [List.map_fst_zip hlength.le]

/-- A call that is unpacked is written once. -/
theorem inLines_unpack (hcall : Spells E call.text n) (hlength : targets.length = members.length)
    (htargets : ∀ t ∈ targets, Adds E t.1.toList (E.inText t.1))
    (h : (unpack call members targets p).outcome = .ok lines) :
    E.inLines lines = (targets.map fun t => E.inText t.1).sum + n := by
  simp only [unpack, Checked.outcome_bind_eq_ok_iff] at h
  obtain ⟨inner, hinner, heq⟩ := h
  cases heq
  have htemporary : Adds E ("const auto " ++ Target.temporary).toList 0 :=
    .of_isCalmText (by rfl)
  have hopening : E.inText "\x7b" = 0 := rfl
  have hclosing : E.inText "\x7d" = 0 := rfl
  simp only [inLines_append, inLines_cons, inLines_nil, hopening, hclosing,
    (htemporary.assigned hcall.adds).inText_eq, inLines_memberLines hlength htargets hinner]
  omega

/-- The number of times that each of several expressions is written for `count` names or places: a
single one is shared by all, and then written once for each. -/
def shares (count : Nat) (es : List Expr) : Nat :=
  if es.length = 1 then count else 1

/-- The number of times that each of the expressions behind an equal sign is written. A call that is
unpacked is written once. -/
def sharers (scopes : Scopes) (count : Nat) (es : List Expr) : Nat :=
  match (unpackable? scopes count es).outcome with
  | .ok (some _) => 1
  | _ => shares count es

/-- What is shared among targets may be changed before or after it is shared. -/
theorem map_spread {α β : Type} (f : α → β) (count : Nat) (as : List α) :
    (spread count as).map f = spread count (as.map f) := by
  rcases as with _ | ⟨a, _ | ⟨b, as⟩⟩ <;> simp [spread]

/-- A single value that is shared has its effects once for each target. -/
theorem totalOf_spread (count : Nat) (es : List Expr) :
    E.totalOf (spread count es) = shares count es * E.totalOf es := by
  rcases es with _ | ⟨e, _ | ⟨e', es⟩⟩ <;> simp [spread, shares, totalOf]

section Declarations

open Declaration

variable {d : Declaration} {plan : Plan} {type : Option Ty} {isConstant : Bool}

/-- The line of a name has the effects of its initializer, which may be left out only if it is
`null`. -/
theorem inText_planName {name : Token} {value : Typed} {line : Line} {binding : Binding}
    (hname : Token.IsName name.lexeme) (hvalue : Spells E value.text n)
    (hnull : value.isNull = true → n = 0)
    (h : (planName isConstant type name e value).outcome = .ok (line, binding)) :
    E.inText line.text = n := by
  obtain ⟨own, text, -, htext, rfl, -⟩ := eq_of_planName h
  have hright := (hvalue.converted htext).adds
  have hleft := isCalmText_declared own hname
  split
  · have hconst : isCalmText ("const " ++
        (own.target ++ " " ++ Target.name name.lexeme)).toList = true := by
      rw [String.toList_append]
      exact isCalmText_append (by rfl) hleft
    simpa [Line.flat, String.append_assoc] using ((Adds.of_isCalmText hconst).assigned hright).inText_eq
  · split
    · rename_i hisNull
      rw [hnull hisNull]
      exact inText_defaultLine own hname
    · simpa [Line.flat] using ((Adds.of_isCalmText hleft).assigned hright).inText_eq

/-- Names that are declared with values have the effects of these values. -/
theorem inLines_planNames {entries : List (Token × Expr × Typed)}
    (hentries : ∀ entry ∈ entries, Token.IsName entry.1.lexeme ∧
      Spells E entry.2.2.text (E.total entry.2.1) ∧
      (entry.2.2.isNull = true → E.total entry.2.1 = 0))
    (h : (planNames isConstant type entries).outcome = .ok plan) :
    E.inLines plan.lines = (entries.map fun entry => E.total entry.2.1).sum := by
  refine inLines_of_forall₂ _ (forall₂_lines_of_planNames h) fun entry hentry l hline => ?_
  obtain ⟨binding, hitem⟩ := hline
  obtain ⟨hname, hvalue, hnull⟩ := hentries entry hentry
  exact inText_planName hname hvalue hnull hitem

/-- Names that are declared without values have no effects. -/
theorem inLines_defaultLines {α : Type} {as : List α} (type : α → Ty) (name : α → Token)
    (hnames : ∀ a ∈ as, Token.IsName (name a).lexeme) :
    E.inLines (as.map fun a => defaultLine (type a) (name a)) = 0 := by
  induction as with
  | nil => rfl
  | cons a as ih =>
    rw [List.forall_mem_cons] at hnames
    simp only [List.map_cons, inLines_cons, inText_defaultLine _ hnames.1, ih hnames.2]

/-- A call that is unpacked has its effects once, however many names it fills: it is written into
the temporary, and the names take the members of that. -/
theorem inLines_planUnpacked {call : Typed} {members : List Ty}
    (hnames : ∀ name ∈ d.names, Token.IsName name.lexeme) (hcall : Spells E call.text n)
    (hlength : members.length = d.names.length)
    (h : (d.planUnpacked type call members p).outcome = .ok plan) : E.inLines plan.lines = n := by
  obtain ⟨hbindings, block, hblock, hlines⟩ := eq_of_planUnpacked h
  have hcount : plan.bindings.length = members.length := by simp [hbindings, hlength]
  have hbound : ∀ b ∈ plan.bindings, Token.IsName b.name.lexeme := by
    intro b hb
    obtain ⟨name, hname, member, -, rfl⟩ := exists_of_mem_planUnpacked h b hb
    exact hnames name hname
  have htargets : ∀ t ∈ plan.bindings.map (fun b => (Target.name b.name.lexeme, b.type)),
      Adds E t.1.toList 0 := by
    intro t ht
    obtain ⟨b, hb, rfl⟩ := List.mem_map.1 ht
    exact .of_isCalmText (isCalmText_of_isNamePart (isNamePart_targetName (hbound b hb)))
  have hzero : ((plan.bindings.map fun b => (Target.name b.name.lexeme, b.type)).map
      fun t => E.inText t.1).sum = 0 :=
    List.sum_eq_zero fun count hcount => by
      obtain ⟨t, ht, rfl⟩ := List.mem_map.1 hcount
      exact (htargets t ht).inText_eq
  have hinner := inLines_unpack hcall (by simpa using hcount)
    (fun t ht => by rw [(htargets t ht).inText_eq]; exact htargets t ht) hblock
  simp only [hlines, inLines_append, inLines_defaultLines Binding.type Binding.name hbound, hinner,
    hzero, Nat.zero_add]

/-- A declaration has the effects of its values, once for each name that a value is written for. -/
theorem inLines_planInitialized {first : Expr} (hscopes : scopes.Every Symbol.IsNullFree)
    (hnames : ∀ name ∈ d.names, Token.IsName name.lexeme)
    (hspelled : ∀ e ∈ d.initializers, e.WellSpelled)
    (h : (d.planInitialized scopes type first).outcome = .ok plan) :
    E.inLines plan.lines = E.totalOf (spread d.names.length d.initializers) := by
  obtain ⟨hcount, values, hinitial, hplanned⟩ := planInitialized_eq_ok h
  obtain ⟨hexprs, -⟩ := eq_of_initialValues hinitial
  have hlength : (spread d.names.length values).length = d.names.length := by
    refine length_spread ?_
    rwa [← hexprs, List.length_map] at hcount
  have hentries : ∀ entry ∈ d.names.zip (spread d.names.length values),
      Token.IsName entry.1.lexeme ∧ Spells E entry.2.2.text (E.total entry.2.1) ∧
        (entry.2.2.isNull = true → E.total entry.2.1 = 0) := by
    rintro ⟨name, e, value⟩ hentry
    obtain ⟨hname, he, hvalue⟩ := initializer_of_entry hinitial _ hentry
    refine ⟨hnames name hname, spells_of_initializer (hspelled e he) hvalue, fun hnull => ?_⟩
    obtain ⟨p, rfl⟩ := Expr.eq_null_of_isNull hscopes hvalue hnull
    rw [total_eq]
    rfl
  have hexpr : ((d.names.zip (spread d.names.length values)).map Prod.snd).map Prod.fst =
      spread d.names.length d.initializers := by
    rw [List.map_snd_zip hlength.le, map_spread, hexprs]
  rw [inLines_planNames hentries hplanned, totalOf, ← hexpr, List.map_map, List.map_map]
  rfl

/-- The lines of a declaration have the effects of its initializers, as often as these are
written. -/
theorem inLines_plan (hscopes : scopes.Every Symbol.IsNullFree)
    (hnames : ∀ name ∈ d.names, Token.IsName name.lexeme)
    (hspelled : ∀ e ∈ d.initializers, e.WellSpelled) (h : (d.plan scopes).outcome = .ok plan) :
    E.inLines plan.lines =
      sharers scopes d.names.length d.initializers * E.totalOf d.initializers := by
  obtain ⟨type, -, hcases⟩ := plan_cases h
  rcases hcases with ⟨hnil, hplan⟩ | ⟨call, members, position, hunpacked, hplan⟩ |
    ⟨first, hunpacked, hplan⟩
  · obtain ⟨own, -, rfl⟩ := eq_of_planDefault hplan
    simp only [hnil, totalOf, List.map_nil, List.sum_nil, Nat.mul_zero]
    exact inLines_defaultLines (fun _ => own) id hnames
  · obtain ⟨e, hsingle, hcall, -, hlength⟩ := eq_of_unpackable hunpacked
    have hspells := spells_of_value (E := E) (hspelled e (by simp [hsingle])) hcall
    rw [inLines_planUnpacked hnames hspells hlength hplan, sharers, hunpacked, hsingle]
    simp [totalOf]
  · rw [inLines_planInitialized hscopes hnames hspelled hplan, sharers, hunpacked]
    exact totalOf_spread _ _

end Declarations

section Assignments

open Assignment

variable {a : Assignment} {places : List Typed} {op : Arithmetic} {symbol : String}

/-- The places of an assignment are its targets, each of which is written as often as it says. -/
theorem inText_places {targets : List Expr} (hspelled : ∀ e ∈ targets, e.WellSpelled)
    (h : (Assignment.places scopes targets).outcome = .ok places) :
    (∀ place ∈ places, Adds E place.text.toList (E.inText place.text)) ∧
      (places.map fun place => E.inText place.text).sum = E.totalOf targets ∧
      places.length = targets.length := by
  have hplaces := forall₂_of_places h
  clear h
  induction hplaces with
  | nil => simp [totalOf]
  | @cons e place targets places hfirst _ ih =>
    rw [List.forall_mem_cons] at hspelled
    have hadds := (spells_of_value (E := E) hspelled.1 hfirst.1).adds
    obtain ⟨hall, hsum, hlength⟩ := ih hspelled.2
    rw [List.forall_mem_cons, hadds.inText_eq]
    refine ⟨⟨hadds, hall⟩, ?_, by simp [hlength]⟩
    simp [hadds.inText_eq, hsum, totalOf]

/-- A name by itself has no effect. -/
theorem total_eq_zero_of_name {name : String} (h : e.name? = some name) : E.total e = 0 := by
  cases e with
  | ident => rw [total_eq]; rfl
  | _ => cases h

/-- A swap has no effect besides those of its places: its values are names, and each place is
written once. -/
theorem inText_swap {targets values : List Expr} {line : Line}
    (hplaces : ∀ place ∈ places, Adds E place.text.toList (E.inText place.text))
    (h : (swap? targets values places).outcome = .ok (some line)) :
    E.inText line.text = (places.map fun place => E.inText place.text).sum ∧
      E.totalOf values = 0 := by
  obtain ⟨⟨first, second, rfl, -, rfl⟩, _, _, v, v', x, y, -, rfl, -, -, hv, hv'⟩ := eq_of_swap h
  have hcallee : E.reads (.word []) ("std::swap" ++ "(").toList = (.word [], 0) := by
    rcases E with (_ | _) | _ | _ | _ | _ <;> rfl
  have hargs := (hplaces first (by simp)).pair (hplaces second (by simp))
  have hline : Adds E ("std::swap(" ++ first.text ++ ", " ++ second.text ++ ");").toList
      (E.inText first.text + E.inText second.text) := by
    simpa using (Adds.call hcallee hargs).ended
  refine ⟨by simpa [Line.flat] using hline.inText_eq, ?_⟩
  simp [totalOf, total_eq_zero_of_name hv, total_eq_zero_of_name hv']

/-- The number of times that a compound assignment writes its place: `%=` and `^=` write it again,
to read it. -/
def placings : Arithmetic → Nat
  | .mod | .pow => 2
  | _ => 1

/-- A compound assignment has the effects of its place as often as its form writes the place, and
those of its value once. -/
theorem inText_compoundText {place value : Typed}
    (hsymbol : symbol = op.symbol ++ "=")
    (hplace : Adds E place.text.toList n) (hvalue : Adds E value.text.toList k) :
    E.inText (compoundText op symbol place value) = placings op * n + k := by
  have hargs := hplace.pair hvalue
  cases op with
  | mod =>
    have hcallee : E.reads (.word []) ("rt::mod" ++ "(").toList = (.word [], 0) := by
      rcases E with (_ | _) | _ | _ | _ | _ <;> rfl
    have hline := hplace.assigned (Adds.call hcallee hargs)
    rw [placings, Nat.two_mul, Nat.add_assoc]
    exact Adds.inText_eq (by simpa [compoundText] using hline)
  | pow =>
    have hcallee : E.reads (.word []) ("rt::pow" ++ "(").toList = (.word [], 0) := by
      rcases E with (_ | _) | _ | _ | _ | _ <;> rfl
    have hcast : Adds E ("static_cast<" ++ place.type.target ++ ">(rt::pow(" ++ place.text ++ ", " ++
        value.text ++ "))").toList (n + k) := by
      simpa using (Adds.call hcallee hargs).cast place.type
    have hline := hplace.assigned hcast
    rw [placings, Nat.two_mul, Nat.add_assoc]
    exact Adds.inText_eq (by simpa [compoundText] using hline)
  | add | sub | mul | div =>
    simp only [placings, Nat.one_mul, hsymbol, compoundText]
    exact (hplace.compound _ hvalue).inText_eq

/-- The line of a compound assignment has the effects of its text: those of the place as often as
its form writes it, and those of the value once. -/
theorem inText_compoundLine {place value : Typed} {line : Line}
    (hsymbol : symbol = op.symbol ++ "=")
    (hplace : Adds E place.text.toList n) (hvalue : Adds E value.text.toList k)
    (h : (compoundLine op symbol place value p).outcome = .ok line) :
    E.inText line.text = placings op * n + k := by
  rcases eq_of_compoundLine h with ⟨rfl, rfl⟩ | rfl
  · have hline := hplace.compound .add hvalue
    simp only [placings, Nat.one_mul]
    exact Adds.inText_eq (by simpa [Arithmetic.symbol, Line.flat] using hline)
  · exact inText_compoundText hsymbol hplace hvalue

/-- Several compound assignments have the effects of each. -/
theorem inLines_compoundLines {pairs : List (Typed × Expr)}
    (hsymbol : symbol = op.symbol ++ "=")
    (hplaces : ∀ pair ∈ pairs, Adds E pair.1.text.toList (E.inText pair.1.text))
    (hspelled : ∀ pair ∈ pairs, pair.2.WellSpelled)
    (h : (compoundLines scopes op symbol pairs).outcome = .ok lines) :
    E.inLines lines =
      (pairs.map fun pair => placings op * E.inText pair.1.text + E.total pair.2).sum := by
  refine inLines_of_forall₂ _ (forall₂_of_compoundLines h) fun pair hpair l hline => ?_
  obtain ⟨value, hvalue, hline⟩ := hline
  have hspells := spells_of_value (E := E) (hspelled pair hpair) hvalue
  exact inText_compoundLine hsymbol (hplaces pair hpair) hspells.adds hline

/-- Several plain assignments have the effects of their places and their values. -/
theorem inLines_plainLines {pairs : List (Typed × Expr)}
    (hplaces : ∀ pair ∈ pairs, Adds E pair.1.text.toList (E.inText pair.1.text))
    (hspelled : ∀ pair ∈ pairs, pair.2.WellSpelled)
    (h : (plainLines scopes pairs).outcome = .ok lines) :
    E.inLines lines = (pairs.map fun pair => E.inText pair.1.text + E.total pair.2).sum := by
  refine inLines_of_forall₂ _ (forall₂_of_plainLines h) fun pair hpair l hline => ?_
  obtain ⟨value, text, hvalue, htext, rfl⟩ := hline
  have hright := (spells_of_initializer (E := E) (hspelled pair hpair) hvalue).converted htext
  exact ((hplaces pair hpair).assigned hright.adds).inText_eq

/-- One value for each place, or a single one for all. -/
theorem length_of_checkCount {count : Nat} (hne : a.values ≠ [])
    (h : (checkCount count a.values).outcome = .ok ()) :
    a.values.length = 1 ∨ a.values.length = count := by
  unfold checkCount at h
  split at h
  · split at h
    · exact .inr ‹_›
    · simp at h
  · rename_i hmany
    rcases hvalues : a.values with _ | ⟨first, _ | ⟨second, others⟩⟩
    · exact absurd hvalues hne
    · exact .inl rfl
    · exact absurd hvalues (hmany first second others)

/-- The effects of all pairs are those of all places, as often as they are written, and those of the
values, as often as they are shared. -/
theorem sum_pairs (factor : Nat) (hcount : a.values.length = 1 ∨ a.values.length = places.length) :
    ((a.pairs places).map fun pair => factor * E.inText pair.1.text + E.total pair.2).sum =
      factor * (places.map fun place => E.inText place.text).sum +
        shares places.length a.values * E.totalOf a.values := by
  have hlength := length_spread hcount
  have hplaces : (a.pairs places).map Prod.fst = places := List.map_fst_zip hlength.ge
  have hvalues : (a.pairs places).map Prod.snd = spread places.length a.values :=
    List.map_snd_zip hlength.le
  rw [← totalOf_spread, List.sum_map_add, List.sum_map_mul_left, totalOf, ← hvalues, List.map_map]
  nth_rewrite 3 [← hplaces]
  rw [List.map_map]
  rfl

/-- A plain assignment writes each place once, and its values as often as they are shared. -/
theorem inLines_assignLines
    (hplaces : ∀ place ∈ places, Adds E place.text.toList (E.inText place.text))
    (hspelled : ∀ e ∈ a.values, e.WellSpelled) (hne : a.values ≠ [])
    (h : (a.assignLines scopes places).outcome = .ok lines) :
    E.inLines lines = (places.map fun place => E.inText place.text).sum +
      sharers scopes places.length a.values * E.totalOf a.values := by
  rcases assignLines_cases h with ⟨line, hswap, rfl⟩ |
    ⟨call, members, position, hunpacked, hunpack⟩ | ⟨hunpacked, hcount, hlines⟩
  · obtain ⟨hline, hzero⟩ := inText_swap hplaces hswap
    simp [hline, hzero]
  · obtain ⟨e, hsingle, hcall, -, hlength⟩ := eq_of_unpackable hunpacked
    have hspells := spells_of_value (E := E) (hspelled e (by simp [hsingle])) hcall
    have htargets : ∀ t ∈ places.map (fun p => (p.text, p.type)),
        Adds E t.1.toList (E.inText t.1) := by
      intro t ht
      obtain ⟨place, hplace, rfl⟩ := List.mem_map.1 ht
      exact hplaces place hplace
    rw [inLines_unpack hspells (by simp [hlength]) htargets hunpack, sharers, hunpacked]
    simp [hsingle, totalOf, Function.comp_def]
  · have hsum := sum_pairs (E := E) 1 (length_of_checkCount hne hcount)
    rw [inLines_plainLines (fun pair hpair => hplaces _ (mem_of_mem_pairs hpair).1)
      (fun pair hpair => hspelled _ (mem_of_mem_pairs hpair).2) hlines, sharers, hunpacked]
    simpa only [Nat.one_mul] using hsum

/-- The number of times that the targets and the values of an assignment are written. -/
def assignmentCopies (scopes : Scopes) (a : Assignment) : Nat × Nat :=
  match a.operator.kind with
  | .compound op => (placings op, shares a.targets.length a.values)
  | _ => (1, sharers scopes a.targets.length a.values)

/-- A compound assignment writes its places as its form asks for, and a value for each place that
takes it. -/
theorem assignmentCopies_compound {op : Arithmetic} (hop : a.operator.kind = .compound op) :
    assignmentCopies scopes a = (placings op, shares a.targets.length a.values) := by
  rw [assignmentCopies, hop]

/-- A plain assignment writes each place once, and a call that is unpacked once too. -/
theorem assignmentCopies_plain (hplain : ∀ op, a.operator.kind ≠ .compound op) :
    assignmentCopies scopes a = (1, sharers scopes a.targets.length a.values) := by
  unfold assignmentCopies
  split
  · rename_i op hop
    exact absurd hop (hplain op)
  · rfl

/-- The lines of an assignment have the effects of its targets and its values, as often as these are
written. -/
theorem inLines_assignment
    (hsymbol : ∀ op, a.operator.kind = .compound op → a.operator.lexeme = op.symbol ++ "=")
    (htargets : ∀ e ∈ a.targets, e.WellSpelled) (hvalues : ∀ e ∈ a.values, e.WellSpelled)
    (hne : a.values ≠ []) (h : (a.lines scopes).outcome = .ok lines) :
    E.inLines lines = (assignmentCopies scopes a).1 * E.totalOf a.targets +
      (assignmentCopies scopes a).2 * E.totalOf a.values := by
  obtain ⟨places, hplaces, hcases⟩ := lines_cases h
  obtain ⟨hadds, hsum, hlength⟩ := inText_places (E := E) htargets hplaces
  rcases hcases with ⟨op, hop, hcount, hlines⟩ | ⟨hplain, hlines⟩
  · rw [inLines_compoundLines (hsymbol op hop)
      (fun pair hpair => hadds _ (mem_of_mem_pairs hpair).1)
      (fun pair hpair => hvalues _ (mem_of_mem_pairs hpair).2) hlines,
      sum_pairs _ (length_of_checkCount hne hcount), hsum, hlength,
      assignmentCopies_compound hop]
  · rw [inLines_assignLines hadds hvalues hne hlines, hsum, hlength, assignmentCopies_plain hplain,
      Nat.one_mul]

end Assignments

/-- The lines of expressions that are evaluated for their effects have just these. -/
theorem inLines_operationLines {es : List Expr} (hspelled : ∀ e ∈ es, e.WellSpelled)
    (h : (operationLines scopes es).outcome = .ok lines) : E.inLines lines = E.totalOf es := by
  refine inLines_of_forall₂ E.total (forall₂_of_operationLines h) fun e he l hline => ?_
  obtain ⟨typed, htyped, -, rfl⟩ := hline
  have hadds : Adds E (typed.text ++ ";").toList (E.total e) := by
    simpa using (spells_of_value (E := E) (hspelled e he) htyped).adds.ended
  exact hadds.inText_eq

end Effect

end Sprout
