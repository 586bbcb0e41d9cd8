import Sprout.Proofs.Blocks.Structure
import Sprout.Proofs.Capture
import Sprout.Proofs.Names.Values

namespace Sprout

open Target Code

/-- The names that names of the source have in the generated text. -/
def Target.escaped (names : List String) : List (List Char) :=
  names.map fun name => (Target.name name).toList

/-- A member of the temporary, converted to the type of its target where that is needed. -/
def Target.IsMember (text : String) : Prop :=
  ∃ (index : Nat) (type : Ty),
    text = "std::get<" ++ toString index ++ ">(" ++ temporary ++ ")" ∨
      text = "static_cast<" ++ type.target ++ ">(" ++
        ("std::get<" ++ toString index ++ ">(" ++ temporary ++ ")") ++ ")"

namespace Code

/-- Names that can be declared in one block: each is declared once, and none is a parameter of the
main function. -/
def Distinct (own : List (List Char)) : Prop :=
  own.Nodup ∧ "argc".toList ∉ own ∧ "argv".toList ∉ own

/-- A line that keeps names apart, where `before` are those that are declared in the open blocks. -/
structure KeepsApart (before : List (List (List Char))) (line : List Char) : Prop where
  distinct : ∀ own ∈ namesAfter before line, Distinct own
  /-- The temporary is declared with a call that does not mention it. -/
  call : opens line = false → declared? (content line) = some temporary.toList →
    ∃ call : String, content line = ("const auto " ++ temporary ++ " = " ++ call ++ ";").toList ∧
      ¬ Mentions temporary.toList call.toList
  /-- In its block, the temporary is only read into targets that do not mention it. -/
  target : closes line = false → (∃ own ∈ before.head?, temporary.toList ∈ own) →
    ∃ target value : String, content line = (target ++ " = " ++ value ++ ";").toList ∧
      IsMember value ∧ ¬ Mentions temporary.toList target.toList

/-- Lines that keep names apart, the latest in front. -/
def Apart : List Line → Prop
  | [] => True
  | l :: earlier => KeepsApart (namesBehind earlier) l.text.toList ∧ Apart earlier

/-- The names that lines declare, in order. -/
def declaredBy (lines : List Line) : List (List Char) :=
  lines.filterMap fun l => declared? l.text.toList

/-- A line that reads a member of the temporary into a target. -/
def ReadsMember (l : Line) : Prop :=
  ∃ target value : String, l.text = target ++ " = " ++ value ++ ";" ∧ IsValueText target ∧ IsMember value

/-- `Binds body names`: the lines of a statement declare the names, in order. A block may stand behind
them, in which the results of a call are read from the temporary. -/
inductive Binds : List Line → List String → Prop
  | flat {body names} (hbody : Sentences 0 body) (hnames : declaredBy body = escaped names) :
    Binds body names
  | unpacked {front names inner} {call : String} (hfront : Sentences 0 front)
    (hnames : declaredBy front = escaped names) (hcall : IsValueText call)
    (hsentences : Sentences 1 (⟨1, "const auto " ++ temporary ++ " = " ++ call ++ ";"⟩ :: inner))
    (hinner : ∀ l ∈ inner, ReadsMember l) :
    Binds (front ++ (⟨0, "\x7b"⟩ ::
      (⟨1, "const auto " ++ temporary ++ " = " ++ call ++ ";"⟩ :: inner ++ [⟨0, "\x7d"⟩]))) names

section Distinct

variable {own front : List (List Char)} {names : List String}

/-- Names that are all different stay so when some are left out. -/
theorem Distinct.behind (h : Distinct (front ++ own)) : Distinct own := by
  obtain ⟨hnodup, hargc, hargv⟩ := h
  rw [List.mem_append, not_or] at hargc hargv
  exact ⟨hnodup.of_append_right, hargc.2, hargv.2⟩

/-- No names are all different. -/
theorem distinct_nil : Distinct [] :=
  ⟨List.nodup_nil, List.not_mem_nil, List.not_mem_nil⟩

/-- The temporary is the only name of its block. -/
theorem distinct_temporary : Distinct [temporary.toList] := by
  refine ⟨List.nodup_singleton _, ?_, ?_⟩ <;> decide

/-- Different names of the source stay distinct. -/
theorem distinct_escaped (h : names.Nodup) : Distinct (escaped names) := by
  have hfree : ∀ word ∈ reserved, word.toList ∉ escaped names := by
    intro word hword hmem
    obtain ⟨name, -, hname⟩ := List.mem_map.1 hmem
    exact name_not_mem_reserved name (String.toList_inj.1 hname ▸ hword)
  refine ⟨h.map fun a b hab => name_injective (String.toList_inj.1 hab), ?_, ?_⟩
  · exact hfree "argc" (by decide)
  · exact hfree "argv" (by decide)

/-- No name of the source is the temporary. -/
theorem temporary_not_mem_escaped (names : List String) : temporary.toList ∉ escaped names := by
  intro hmem
  obtain ⟨name, -, hname⟩ := List.mem_map.1 hmem
  apply not_temporary_prefix name
  rw [hname]
  exact ⟨['0'], rfl⟩

end Distinct

section Bodies

variable {body front inner lines : List Line} {own : List (List Char)}
variable {outer : List (List (List Char))} {extra : Nat}

/-- Sentences that declare nothing twice keep names apart, and add those that they declare, by
induction on the sentences. None opens a block or closes one. -/
theorem apart_sentences (depth : Nat) (h : Apart lines) (hbehind : namesBehind lines = own :: outer)
    (hbody : Sentences extra body) (hfree : temporary.toList ∉ (declaredBy body).reverse ++ own)
    (hdistinct : ∀ block ∈ ((declaredBy body).reverse ++ own) :: outer, Distinct block) :
    Apart (Line.emitted depth body ++ lines) ∧
      namesBehind (Line.emitted depth body ++ lines) = ((declaredBy body).reverse ++ own) :: outer := by
  induction body generalizing lines own with
  | nil => exact ⟨h, hbehind⟩
  | cons l body ih =>
    obtain ⟨⟨-, hsentence⟩, hbody⟩ := List.forall_mem_cons.1 hbody
    have hafter : namesAfter (own :: outer) l.text.toList =
        ((declared? l.text.toList).toList ++ own) :: outer :=
      namesAfter_sentence hsentence.solid hsentence.ended
    obtain ⟨hcontent, -⟩ := content_of_isFlush (isSolid_iff.1 hsentence.solid).1
    -- What this line declares stands behind what the others declare.
    have hsplit : (declaredBy (l :: body)).reverse ++ own =
        (declaredBy body).reverse ++ ((declared? l.text.toList).toList ++ own) := by
      unfold declaredBy
      rw [List.filterMap_cons]
      cases declared? l.text.toList <;> simp
    rw [hsplit] at hfree hdistinct ⊢
    rw [List.forall_mem_cons] at hdistinct
    have hline : KeepsApart (namesBehind lines) l.text.toList := by
      rw [hbehind]
      rw [List.mem_append, not_or, List.mem_append, not_or] at hfree
      refine ⟨?_, fun _ hdeclared => ?_, ?_⟩
      · rw [hafter, List.forall_mem_cons]
        exact ⟨hdistinct.1.behind, hdistinct.2⟩
      · rw [hcontent] at hdeclared
        exact absurd (by simp [hdeclared]) hfree.2.1
      · rintro - ⟨names, hnames, hmem⟩
        cases hnames
        exact absurd hmem hfree.2.2
    rw [Line.emitted_cons, List.append_assoc]
    have hnext : Apart (⟨depth + l.depth, l.text⟩ :: lines) := ⟨hline, h⟩
    have hadded : namesBehind (⟨depth + l.depth, l.text⟩ :: lines) =
        ((declared? l.text.toList).toList ++ own) :: outer := by
      rw [namesBehind, hbehind, hafter]
    exact ih hnext hadded hbody hfree (List.forall_mem_cons.2 hdistinct)

/-- In the block of the temporary, its members are read, and nothing else is declared: no target is
a text that mentions the temporary. -/
theorem apart_members (depth : Nat) (h : Apart lines)
    (hbehind : namesBehind lines = [temporary.toList] :: outer)
    (hsentences : Sentences extra inner) (houter : ∀ block ∈ outer, Distinct block)
    (hinner : ∀ l ∈ inner, ReadsMember l) :
    Apart (Line.emitted depth inner ++ lines) ∧
      namesBehind (Line.emitted depth inner ++ lines) = [temporary.toList] :: outer := by
  induction inner generalizing lines with
  | nil => exact ⟨h, hbehind⟩
  | cons l inner ih =>
    rw [List.forall_mem_cons] at hinner
    obtain ⟨⟨-, hsentence⟩, hsentences⟩ := List.forall_mem_cons.1 hsentences
    obtain ⟨⟨target, value, htext, htarget, hvalue⟩, hinner⟩ := hinner
    obtain ⟨hcontent, -⟩ := content_of_isFlush (isSolid_iff.1 hsentence.solid).1
    have hnone : declared? l.text.toList = none := by
      apply declared?_of_startsValue
      rw [htext, String.append_assoc, String.append_assoc]
      exact htarget.starts_behind rfl _
    have hafter : namesAfter ([temporary.toList] :: outer) l.text.toList =
        [temporary.toList] :: outer := by
      rw [namesAfter_sentence hsentence.solid hsentence.ended, hnone]
      rfl
    have hline : KeepsApart (namesBehind lines) l.text.toList := by
      rw [hbehind]
      refine ⟨?_, fun _ hdeclared => ?_, fun _ _ => ?_⟩
      · rw [hafter]
        exact List.forall_mem_cons.2 ⟨distinct_temporary, houter⟩
      · rw [hcontent, hnone] at hdeclared
        cases hdeclared
      · exact ⟨target, value, by rw [hcontent, htext], hvalue, htarget.sparing.not_mentions⟩
    rw [Line.emitted_cons, List.append_assoc]
    have hnext : Apart (⟨depth + l.depth, l.text⟩ :: lines) := ⟨hline, h⟩
    have hkept : namesBehind (⟨depth + l.depth, l.text⟩ :: lines) = [temporary.toList] :: outer := by
      rw [namesBehind, hbehind, hafter]
    exact ih hnext hkept hsentences hinner

/-- A line that opens and declares nothing keeps names apart, unless it stands beside the temporary. -/
theorem keepsApart_brace {before : List (List (List Char))} {line : List Char}
    (hdistinct : ∀ own ∈ namesAfter before line, Distinct own)
    (hline : opens line = true ∨ declared? (content line) = none)
    (hfree : closes line = true ∨ ∀ own ∈ before.head?, temporary.toList ∉ own) :
    KeepsApart before line := by
  refine ⟨hdistinct, fun hopens hdeclared => ?_, fun hcloses ⟨own, hown, hmem⟩ => ?_⟩
  · cases hline with
    | inl hopening => exact absurd (hopens.symm.trans hopening) (by decide)
    | inr hnone =>
      rw [hnone] at hdeclared
      cases hdeclared
  · cases hfree with
    | inl hclosing => exact absurd (hcloses.symm.trans hclosing) (by decide)
    | inr hfree => exact absurd hmem (hfree own hown)

/-- A block is opened, in which the temporary holds the call. The name is new in that block, and the
call itself does not mention it. -/
theorem apart_held {call : String} (depth : Nat) (h : Apart lines)
    (hbehind : namesBehind lines = own :: outer) (hfree : temporary.toList ∉ own)
    (hdistinct : ∀ block ∈ own :: outer, Distinct block) (hcall : IsValueText call)
    (hsentence : IsSentence ("const auto " ++ temporary ++ " = " ++ call ++ ";")) :
    Apart (⟨depth + 1, "const auto " ++ temporary ++ " = " ++ call ++ ";"⟩ ::
        ⟨depth, "\x7b"⟩ :: lines) ∧
      namesBehind (⟨depth + 1, "const auto " ++ temporary ++ " = " ++ call ++ ";"⟩ ::
        ⟨depth, "\x7b"⟩ :: lines) = [temporary.toList] :: own :: outer := by
  have hopening : namesBehind (⟨depth, "\x7b"⟩ :: lines) = [] :: own :: outer := by
    rw [namesBehind, hbehind]
    exact namesAfter_header .plain _
  have hopened : Apart (⟨depth, "\x7b"⟩ :: lines) := by
    refine ⟨keepsApart_brace ?_ (.inl OpensFresh.plain.opens) (.inr ?_), h⟩
    · rw [← namesBehind, hopening]
      exact List.forall_mem_cons.2 ⟨distinct_nil, hdistinct⟩
    · rw [hbehind]
      rintro _ ⟨⟩
      exact hfree
  have hdeclared : declared? ("const auto " ++ temporary ++ " = " ++ call ++ ";").toList =
      some temporary.toList := by
    simp only [String.toList_append, List.append_assoc]
    rfl
  have hholds : namesBehind (⟨depth + 1, "const auto " ++ temporary ++ " = " ++ call ++ ";"⟩ ::
      ⟨depth, "\x7b"⟩ :: lines) = [temporary.toList] :: own :: outer := by
    rw [namesBehind, hopening, namesAfter_sentence hsentence.solid hsentence.ended, hdeclared]
    rfl
  obtain ⟨hcontent, -⟩ := content_of_isFlush (isSolid_iff.1 hsentence.solid).1
  refine ⟨⟨⟨?_, fun _ _ => ⟨call, hcontent, hcall.sparing.not_mentions⟩, ?_⟩, hopened⟩, hholds⟩
  · rw [← namesBehind, hholds]
    exact List.forall_mem_cons.2 ⟨distinct_temporary, hdistinct⟩
  · -- The temporary is not there before this line.
    rw [hopening]
    rintro - ⟨_, ⟨⟩, hmem⟩
    cases hmem

/-- The block that unpacks a call keeps names apart, and leaves those around it as they are. -/
theorem apart_unpacked {call : String} (depth : Nat) (h : Apart lines)
    (hbehind : namesBehind lines = own :: outer) (hfree : temporary.toList ∉ own)
    (hdistinct : ∀ block ∈ own :: outer, Distinct block) (hcall : IsValueText call)
    (hsentences : Sentences 1 (⟨1, "const auto " ++ temporary ++ " = " ++ call ++ ";"⟩ :: inner))
    (hinner : ∀ l ∈ inner, ReadsMember l) :
    Apart (Line.emitted depth (⟨0, "\x7b"⟩ ::
        (⟨1, "const auto " ++ temporary ++ " = " ++ call ++ ";"⟩ :: inner ++ [⟨0, "\x7d"⟩])) ++ lines) ∧
      namesBehind (Line.emitted depth (⟨0, "\x7b"⟩ ::
        (⟨1, "const auto " ++ temporary ++ " = " ++ call ++ ";"⟩ :: inner ++ [⟨0, "\x7d"⟩])) ++ lines) =
          own :: outer := by
  obtain ⟨⟨-, hsentence⟩, hsentences⟩ := List.forall_mem_cons.1 hsentences
  obtain ⟨hheld, hholds⟩ := apart_held depth h hbehind hfree hdistinct hcall hsentence
  obtain ⟨hread, hmembers⟩ := apart_members depth hheld hholds hsentences hdistinct hinner
  have hlines : Line.emitted depth (⟨0, "\x7b"⟩ ::
      (⟨1, "const auto " ++ temporary ++ " = " ++ call ++ ";"⟩ :: inner ++ [⟨0, "\x7d"⟩])) ++ lines =
      ⟨depth, "\x7d"⟩ :: (Line.emitted depth inner ++
        ⟨depth + 1, "const auto " ++ temporary ++ " = " ++ call ++ ";"⟩ ::
          ⟨depth, "\x7b"⟩ :: lines) := by
    simp
  have hclosed : namesBehind (⟨depth, "\x7d"⟩ :: (Line.emitted depth inner ++
      ⟨depth + 1, "const auto " ++ temporary ++ " = " ++ call ++ ";"⟩ ::
        ⟨depth, "\x7b"⟩ :: lines)) = own :: outer := by
    rw [namesBehind, hmembers, namesAfter_brace, List.tail_cons]
  rw [hlines]
  have hnone : declared? (content "\x7d".toList) = none := rfl
  refine ⟨⟨keepsApart_brace ?_ (.inr hnone) (.inl closes_brace), hread⟩, hclosed⟩
  rw [← namesBehind, hclosed]
  exact hdistinct

/-- The lines of a statement keep names apart, and add those that it binds to the innermost block. -/
theorem apart_body {names own : List String} (depth : Nat) (h : Apart lines)
    (hbehind : namesBehind lines = escaped own :: outer)
    (hbody : Binds body names) (hnodup : (names.reverse ++ own).Nodup)
    (houter : ∀ block ∈ outer, Distinct block) :
    Apart (Line.emitted depth body ++ lines) ∧
      namesBehind (Line.emitted depth body ++ lines) = escaped (names.reverse ++ own) :: outer := by
  have hescaped : (escaped names).reverse ++ escaped own = escaped (names.reverse ++ own) := by
    simp [escaped]
  have hfree := temporary_not_mem_escaped (names.reverse ++ own)
  have hdistinct : ∀ block ∈ escaped (names.reverse ++ own) :: outer, Distinct block :=
    List.forall_mem_cons.2 ⟨distinct_escaped hnodup, houter⟩
  rw [← hescaped] at hfree hdistinct ⊢
  cases hbody with
  | flat hbody hnames =>
    rw [← hnames] at hfree hdistinct ⊢
    exact apart_sentences depth h hbehind hbody hfree hdistinct
  | unpacked hfront hnames hcall hsentences hinner =>
    rw [← hnames] at hfree hdistinct ⊢
    obtain ⟨hbefore, hadded⟩ := apart_sentences depth h hbehind hfront hfree hdistinct
    rw [Line.emitted_append, List.append_assoc]
    exact apart_unpacked depth hbefore hadded hfree hdistinct hcall hsentences hinner

end Bodies

end Code

variable {scopes : Scopes} {e : Expr} {p : Position} {lines front : List Line} {names : List String}

variable {call : Typed} {members : List Ty} {targets : List (String × Ty)}

/-- The members of the temporary are read into the targets, one by one. Their index is the only
thing that tells them apart. -/
theorem members_of_memberLines {index : Nat} (htargets : ∀ t ∈ targets, IsValueText t.1)
    (h : (memberLines p index targets members).outcome = .ok lines) :
    ∀ l ∈ lines, ReadsMember l := by
  intro l hl
  obtain ⟨⟨target, member⟩, hentry, index, text, htext, rfl⟩ :=
    exists_left_of_mem (forall₂_of_memberLines h) l hl
  have hmember : IsMember text := ⟨index, target.2, Typed.converted_eq_ok htext⟩
  exact ⟨target.1, text, rfl, htargets target (List.of_mem_zip hentry).1, hmember⟩

/-- A call is unpacked behind the lines that declare its targets, if any do. -/
theorem binds_unpack (hfront : Sentences 0 front) (hnames : declaredBy front = escaped names)
    (hsolid : isSolid call.text = true) (hcall : IsValueText call.text)
    (htargets : ∀ t ∈ targets, isSolid t.1 = true ∧ IsValueText t.1)
    (h : (unpack call members targets p).outcome = .ok lines) : Binds (front ++ lines) names := by
  simp only [unpack, Checked.outcome_bind_eq_ok_iff] at h
  obtain ⟨inner, hinner, heq⟩ := h
  cases heq
  have htemporary : isSolid ("const auto " ++ temporary) = true := by rfl
  have hfirst := IsSentence.assigned htemporary (isSolid_iff.1 hsolid).2
  exact .unpacked hfront hnames hcall
    (.cons hfirst (sentences_of_memberLines (fun t ht => (htargets t ht).1) hinner))
    (members_of_memberLines (fun t ht => (htargets t ht).2) hinner)

section Declarations

open Declaration

variable {d : Declaration} {plan : Plan} {type : Option Ty} {isConstant : Bool}

/-- A name is not written as nothing. -/
theorem name_ne_nil {name : String} (h : Token.IsName name) : (Target.name name).toList ≠ [] := by
  rw [ne_eq, String.toList_eq_nil_iff]
  exact Typed.nonempty_of_isSolid (isSolid_name h)

/-- A name with its initializer is declared behind its type. -/
theorem declared?_initialized (type : Ty) {name initial : String} (hname : Token.IsName name)
    (hinitial : (" = ".toList.isPrefixOf initial.toList || "\x7b".toList.isPrefixOf initial.toList) =
      true) :
    declared? (type.target ++ " " ++ Target.name name ++ initial).toList =
        some (Target.name name).toList ∧
      declared? ("const " ++ (type.target ++ " " ++ Target.name name ++ initial)).toList =
        some (Target.name name).toList := by
  have htext : (type.target ++ " " ++ Target.name name ++ initial).toList =
      type.target.toList ++ ' ' :: ((Target.name name).toList ++ initial.toList) := by simp
  have hdeclared := declared?_type type (Effect.isNamePart_targetName hname) (name_ne_nil hname) hinitial
  rw [htext]
  refine ⟨hdeclared, ?_⟩
  rw [String.toList_append, htext, declared?_const]
  exact hdeclared

/-- The line of a variable without a value declares its name. -/
theorem declared?_defaultLine (type : Ty) {name : Token} (hname : Token.IsName name.lexeme) :
    declared? (defaultLine type name).text.toList = some (Target.name name.lexeme).toList :=
  (declared?_initialized type hname rfl).1

/-- Variables without a value are declared in order, each by its line. -/
theorem declaredBy_defaultLines {α : Type} {as : List α} (type : α → Ty) (name : α → Token)
    (hnames : ∀ a ∈ as, Token.IsName (name a).lexeme) :
    declaredBy (as.map fun a => defaultLine (type a) (name a)) =
      escaped (as.map fun a => (name a).lexeme) := by
  induction as with
  | nil => rfl
  | cons a as ih =>
    rw [List.forall_mem_cons] at hnames
    have hfirst := declared?_defaultLine (type a) hnames.1
    simp only [List.map_cons, declaredBy, escaped, List.filterMap_cons, hfirst]
    exact congrArg _ (ih hnames.2)

/-- The line of a variable with a value declares its name. -/
theorem declared?_planName {name : Token} {value : Typed} {line : Line} {binding : Binding}
    (hname : Token.IsName name.lexeme)
    (h : (planName isConstant type name e value).outcome = .ok (line, binding)) :
    declared? line.text.toList = some (Target.name name.lexeme).toList := by
  obtain ⟨own, text, -, -, rfl, -⟩ := eq_of_planName h
  have hinitial : (" = ".toList.isPrefixOf (" = " ++ text ++ ";").toList ||
      "\x7b".toList.isPrefixOf (" = " ++ text ++ ";").toList) = true := by
    simp
  obtain ⟨hplain, hconst⟩ := declared?_initialized own hname hinitial
  split
  · simpa only [Line.flat, String.append_assoc] using hconst
  · split
    · exact declared?_defaultLine own hname
    · simpa only [Line.flat, String.append_assoc] using hplain

/-- Variables with a value are declared in order, each by its line. -/
theorem declaredBy_planNames {entries : List (Token × Expr × Typed)}
    (hentries : ∀ entry ∈ entries, Token.IsName entry.1.lexeme)
    (h : (planNames isConstant type entries).outcome = .ok plan) :
    declaredBy plan.lines = escaped (entries.map fun entry => entry.1.lexeme) := by
  obtain ⟨planned, rfl, hplanned⟩ := forall₂_of_planNames h
  clear h
  induction hplanned with
  | nil => rfl
  | cons hitem _ ih =>
    rw [List.forall_mem_cons] at hentries
    have hfirst := declared?_planName hentries.1 hitem
    simp only [List.map_cons, declaredBy, escaped, List.filterMap_cons, hfirst]
    exact congrArg _ (ih hentries.2)

/-- A declaration that unpacks a call declares its names in front of the block that holds the
temporary. -/
theorem binds_planUnpacked {call : Typed} {members : List Ty}
    (hnames : ∀ b ∈ plan.bindings, Token.IsName b.name.lexeme) (hsolid : isSolid call.text = true)
    (hcall : IsValueText call.text) (h : (d.planUnpacked type call members p).outcome = .ok plan) :
    Binds plan.lines (plan.bindings.map fun b => b.name.lexeme) := by
  obtain ⟨-, block, hblock, hlines⟩ := eq_of_planUnpacked h
  rw [hlines]
  refine binds_unpack (sentences_of_defaultLines Binding.type Binding.name hnames)
    (declaredBy_defaultLines Binding.type Binding.name hnames) hsolid hcall (fun t ht => ?_) hblock
  obtain ⟨b, hb, rfl⟩ := List.mem_map.1 ht
  exact ⟨isSolid_name (hnames b hb), Typed.isValueText_name (hnames b hb)⟩

/-- A declaration with initial values declares its names and nothing else: each line is a type, a
blank and a name with its value. -/
theorem binds_planInitialized {first : Expr} (hnames : ∀ name ∈ d.names, Token.IsName name.lexeme)
    (hspelled : ∀ e ∈ d.initializers, e.WellSpelled)
    (h : (d.planInitialized scopes type first).outcome = .ok plan) :
    Binds plan.lines (plan.bindings.map fun b => b.name.lexeme) := by
  obtain ⟨-, values, hinitial, hplanned⟩ := planInitialized_eq_ok h
  have hentries : ∀ entry ∈ d.names.zip (spread d.names.length values),
      Token.IsName entry.1.lexeme ∧ isSolid entry.2.2.text = true := by
    intro entry hentry
    obtain ⟨hname, he, hvalue⟩ := initializer_of_entry hinitial entry hentry
    exact ⟨hnames _ hname, Expr.isSolid_of_initializer (hspelled _ he) hvalue⟩
  have hbound := congrArg (List.map Token.lexeme) (names_of_planNames hplanned)
  rw [List.map_map, List.map_map] at hbound
  refine .flat (sentences_of_planNames hentries hplanned) ?_
  rw [declaredBy_planNames (fun entry hentry => (hentries entry hentry).1) hplanned]
  exact congrArg escaped hbound.symm

/-- The lines of a declaration bind its names, in order, whether they get default values, the
members of a call, or initial values. -/
theorem binds_plan (hnames : ∀ name ∈ d.names, Token.IsName name.lexeme)
    (hspelled : ∀ e ∈ d.initializers, e.WellSpelled) (h : (d.plan scopes).outcome = .ok plan) :
    Binds plan.lines (plan.bindings.map fun b => b.name.lexeme) := by
  have hbindings : ∀ b ∈ plan.bindings, Token.IsName b.name.lexeme := by
    intro b hb
    refine hnames b.name ?_
    rw [← names_of_plan h]
    exact List.mem_map_of_mem hb
  obtain ⟨type, -, hcases⟩ := plan_cases h
  obtain ⟨-, hplan⟩ | ⟨call, members, position, hunpacked, hplan⟩ | ⟨first, -, hplan⟩ := hcases
  · obtain ⟨own, -, rfl⟩ := eq_of_planDefault hplan
    have hdeclared := declaredBy_defaultLines (fun _ => own) id hnames
    refine .flat (sentences_of_defaultLines (fun _ => own) id hnames) ?_
    simpa [Function.comp_def] using hdeclared
  · obtain ⟨e, hsingle, hcall, -⟩ := eq_of_unpackable hunpacked
    have he := hspelled e (by simp [hsingle])
    exact binds_planUnpacked hbindings (Expr.isSolid_of_value he hcall)
      (Expr.isValueText_of_value he hcall) hplan
  · exact binds_planInitialized hnames hspelled hplan

end Declarations

section Assignments

open Assignment

variable {a : Assignment} {places : List Typed} {op : Arithmetic} {symbol : String}

/-- Lines without a declaration bind nothing. -/
theorem binds_nothing (hlines : Sentences 0 lines)
    (hstarts : ∀ l ∈ lines, startsValue l.text.toList = true) : Binds lines [] := by
  refine .flat hlines (List.filterMap_eq_nil_iff.2 fun l hl => ?_)
  exact declared?_of_startsValue (hstarts l hl)

/-- A place starts like a value. -/
theorem isValueText_places {targets : List Expr} (hspelled : ∀ e ∈ targets, e.WellSpelled)
    (h : (Assignment.places scopes targets).outcome = .ok places) :
    ∀ place ∈ places, IsValueText place.text := by
  intro place hmem
  obtain ⟨e, he, hplace, -⟩ := exists_left_of_mem (forall₂_of_places h) place hmem
  exact Expr.isValueText_of_value (hspelled e he) hplace

/-- The line of a swap starts like a value. -/
theorem starts_swap {targets values : List Expr} {line : Line}
    (h : (swap? targets values places).outcome = .ok (some line)) :
    startsValue line.text.toList = true := by
  obtain ⟨⟨first, second, -, -, rfl⟩, -⟩ := eq_of_swap h
  simp only [Line.flat, String.toList_append, List.append_assoc]
  exact startsValue_of_endsWord rfl

/-- A compound assignment starts like a value: with its place, behind which no word follows. -/
theorem starts_compoundText {place value : Typed} (hsymbol : endsWord (" " ++ symbol).toList = true)
    (hplace : IsValueText place.text) :
    startsValue (compoundText op symbol place value).toList = true := by
  unfold compoundText
  split
  · simp only [String.append_assoc]
    exact hplace.starts_behind rfl _
  · simp only [String.append_assoc]
    exact hplace.starts_behind rfl _
  · have hline := hplace.starts_behind hsymbol (" " ++ value.text ++ ";")
    simpa only [String.append_assoc] using hline

/-- Several compound assignments start like values: each line starts with its place. -/
theorem starts_compoundLines {pairs : List (Typed × Expr)}
    (hsymbol : endsWord (" " ++ symbol).toList = true)
    (hplaces : ∀ pair ∈ pairs, IsValueText pair.1.text)
    (h : (compoundLines scopes op symbol pairs).outcome = .ok lines) :
    ∀ l ∈ lines, startsValue l.text.toList = true := by
  intro l hl
  obtain ⟨pair, hpair, value, -, hline⟩ := exists_left_of_mem (forall₂_of_compoundLines h) l hl
  rcases eq_of_compoundLine hline with ⟨-, rfl⟩ | rfl
  · simp only [Line.flat, String.append_assoc]
    exact (hplaces pair hpair).starts_behind rfl _
  · exact starts_compoundText hsymbol (hplaces pair hpair)

/-- Several plain assignments start like values. -/
theorem starts_plainLines {pairs : List (Typed × Expr)}
    (hplaces : ∀ pair ∈ pairs, IsValueText pair.1.text)
    (h : (plainLines scopes pairs).outcome = .ok lines) :
    ∀ l ∈ lines, startsValue l.text.toList = true := by
  intro l hl
  obtain ⟨pair, hpair, value, text, -, -, rfl⟩ := exists_left_of_mem (forall₂_of_plainLines h) l hl
  simp only [Line.flat, String.append_assoc]
  exact (hplaces pair hpair).starts_behind rfl _

/-- An assignment declares nothing, besides the temporary inside braces of its own. Its lines start
with a place or with a call. -/
theorem binds_assignLines (hsolid : ∀ place ∈ places, isSolid place.text = true)
    (hplaces : ∀ place ∈ places, IsValueText place.text) (hspelled : ∀ e ∈ a.values, e.WellSpelled)
    (h : (a.assignLines scopes places).outcome = .ok lines) : Binds lines [] := by
  rcases assignLines_cases h with ⟨line, hswap, rfl⟩ |
    ⟨call, members, position, hunpacked, hunpack⟩ | ⟨-, -, hlines⟩
  · exact binds_nothing (List.forall_mem_singleton.2 (isSentence_of_swap hsolid hswap))
      (List.forall_mem_singleton.2 (starts_swap hswap))
  · obtain ⟨e, hsingle, hcall, -⟩ := eq_of_unpackable hunpacked
    have he := hspelled e (by simp [hsingle])
    have hnone : Sentences 0 [] := .nil
    refine binds_unpack hnone rfl (Expr.isSolid_of_value he hcall)
      (Expr.isValueText_of_value he hcall) (fun t ht => ?_) hunpack
    obtain ⟨place, hplace, rfl⟩ := List.mem_map.1 ht
    exact ⟨hsolid place hplace, hplaces place hplace⟩
  · exact binds_nothing
      (sentences_of_plainLines (fun pair hpair => hsolid _ (mem_of_mem_pairs hpair).1)
        (fun pair hpair => hspelled _ (mem_of_mem_pairs hpair).2) hlines)
      (starts_plainLines (fun pair hpair => hplaces _ (mem_of_mem_pairs hpair).1) hlines)

/-- The lines of an assignment bind nothing. Where a call is unpacked, a block of its own declares
the temporary, which neither the call nor any target mentions. -/
theorem binds_lines
    (hsymbol : ∀ op, a.operator.kind = .compound op → a.operator.lexeme = op.symbol ++ "=")
    (htargets : ∀ e ∈ a.targets, e.WellSpelled) (hvalues : ∀ e ∈ a.values, e.WellSpelled)
    (h : (a.lines scopes).outcome = .ok lines) : Binds lines [] := by
  obtain ⟨places, hplaces, hcases⟩ := lines_cases h
  have hsolid := isSolid_of_places htargets hplaces
  have htexts := isValueText_places htargets hplaces
  rcases hcases with ⟨op, hop, -, hlines⟩ | ⟨-, hlines⟩
  · rw [hsymbol op hop] at hlines
    exact binds_nothing
      (sentences_of_compoundLines (by cases op <;> rfl)
        (fun pair hpair => hsolid _ (mem_of_mem_pairs hpair).1)
        (fun pair hpair => hvalues _ (mem_of_mem_pairs hpair).2) hlines)
      (starts_compoundLines (by cases op <;> rfl)
        (fun pair hpair => htexts _ (mem_of_mem_pairs hpair).1) hlines)
  · exact binds_assignLines hsolid htexts hvalues hlines

end Assignments

/-- The lines of expressions that are evaluated for their effect bind nothing: each of them starts
like the value it is. -/
theorem binds_operationLines {es : List Expr} (hspelled : ∀ e ∈ es, e.WellSpelled)
    (h : (operationLines scopes es).outcome = .ok lines) : Binds lines [] := by
  refine binds_nothing (sentences_of_operationLines hspelled h) ?_
  intro l hl
  obtain ⟨e, he, typed, htyped, -, rfl⟩ := exists_left_of_mem (forall₂_of_operationLines h) l hl
  have hvalue := Expr.isValueText_of_value (hspelled e he) htyped
  rw [Line.flat, String.toList_append]
  exact startsValue_append hvalue.starts rfl

end Sprout
