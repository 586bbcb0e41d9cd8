import Sprout.Proofs.Blocks.Structure

namespace Sprout

/-- The line that opens the main block. It is like no other: what a declaration, an assignment or an
operation becomes ends with a semicolon or is a bare brace. -/
def Line.opensMain (l : Line) : Bool :=
  l.text = "int main(int argc, char** argv) \x7b"

variable {l : Line} {lines : List Line} {scopes : Scopes} {p : Position}

/-- Whether a text has a character that the line of the main block has not. -/
def Target.IsForeign (text : String) : Prop :=
  ∃ c ∈ text.toList, c ∉ "int main(int argc, char** argv) \x7b".toList

/-- A text with a character that the opening line lacks is not that line, whatever stands around
it. -/
theorem Target.IsForeign.append {text : String} (h : IsForeign text) (front back : String) :
    IsForeign (front ++ text ++ back) := by
  obtain ⟨c, hc, hnot⟩ := h
  exact ⟨c, by simp [hc], hnot⟩

/-- A line with a character that the opening line lacks does not open the main block. -/
theorem Line.not_opensMain_of_isForeign (h : Target.IsForeign l.text) : l.opensMain = false := by
  obtain ⟨c, hc, hnot⟩ := h
  rw [opensMain, decide_eq_false_iff_not]
  intro htext
  rw [htext] at hc
  exact hnot hc

/-- A line that ends with a semicolon does not open the main block. -/
theorem Line.not_opensMain_of_isEnded (h : Target.isEnded l.text = true) : l.opensMain = false := by
  have hlast : l.text.toList.getLast? = some ';' := by simpa [Target.isEnded] using h
  exact not_opensMain_of_isForeign ⟨';', List.mem_of_getLast? hlast, by decide⟩

/-- A line that ends with a semicolon does not open the main block. -/
theorem Line.not_opensMain_append (depth : Nat) (front : String) :
    (Line.mk depth (front ++ ";")).opensMain = false :=
  not_opensMain_of_isEnded (Target.isEnded_append front rfl)

/-- Lines none of which opens the main block. -/
def Lines.AreInner (lines : List Line) : Prop :=
  ∀ l ∈ lines, l.opensMain = false

/-- No lines open nothing. -/
theorem Lines.areInner_nil : AreInner [] := by
  intro l hl
  cases hl

/-- Inner lines are put together line by line. -/
theorem Lines.AreInner.cons (hl : l.opensMain = false) (h : AreInner lines) : AreInner (l :: lines) :=
  List.forall_mem_cons.2 ⟨hl, h⟩

/-- Inner lines stay so one behind the other. -/
theorem Lines.AreInner.append {more : List Line} (h : AreInner lines) (hmore : AreInner more) :
    AreInner (lines ++ more) :=
  List.forall_mem_append.2 ⟨h, hmore⟩

/-- None of the inner lines that are emitted opens the main block. -/
theorem Lines.AreInner.countP_emitted (h : AreInner lines) (depth : Nat) :
    (Line.emitted depth lines).countP Line.opensMain = 0 := by
  rw [List.countP_eq_zero]
  intro l hl
  rw [Line.emitted, List.mem_reverse] at hl
  obtain ⟨own, hown, rfl⟩ := List.mem_map.1 hl
  have hinner := h own hown
  simpa [Line.opensMain] using hinner

/-- The members of an unpacked call are assigned by lines that end with a semicolon. -/
theorem areInner_of_memberLines {index : Nat} {targets : List (String × Ty)} {members : List Ty}
    (h : (memberLines p index targets members).outcome = .ok lines) : Lines.AreInner lines := by
  intro l hl
  obtain ⟨entry, -, index, text, -, rfl⟩ := exists_left_of_mem (forall₂_of_memberLines h) l hl
  exact Line.not_opensMain_append _ _

/-- A call is unpacked into such lines between braces. -/
theorem areInner_of_unpack {call : Typed} {targets : List (String × Ty)} {members : List Ty}
    (h : (unpack call members targets p).outcome = .ok lines) : Lines.AreInner lines := by
  simp only [unpack, Checked.outcome_bind_eq_ok_iff] at h
  obtain ⟨inner, hinner, heq⟩ := h
  cases heq
  refine .append (.append (.cons (by decide) (.cons ?_ Lines.areInner_nil))
    (areInner_of_memberLines hinner)) (.cons (by decide) Lines.areInner_nil)
  exact Line.not_opensMain_append _ _

section Declarations

open Declaration

variable {d : Declaration} {plan : Plan} {type : Option Ty}

/-- Variables without a value are declared by lines that end with a semicolon. -/
theorem areInner_defaultLines {α : Type} (as : List α) (type : α → Ty) (name : α → Token) :
    Lines.AreInner (as.map fun a => defaultLine (type a) (name a)) := by
  intro l hl
  obtain ⟨a, -, rfl⟩ := List.mem_map.1 hl
  exact Line.not_opensMain_of_isEnded (Target.isEnded_append _ rfl)

/-- Variables with a value are declared by lines that end with a semicolon. -/
theorem areInner_of_planNames {isConstant : Bool} {entries : List (Token × Expr × Typed)}
    (h : (planNames isConstant type entries).outcome = .ok plan) : Lines.AreInner plan.lines := by
  intro l hl
  obtain ⟨entry, -, binding, hitem⟩ := exists_left_of_mem (forall₂_lines_of_planNames h) l hl
  obtain ⟨own, text, -, -, rfl, -⟩ := eq_of_planName hitem
  refine Line.not_opensMain_of_isEnded ?_
  split
  · exact Target.isEnded_append _ (Target.isEnded_append _ rfl)
  · split <;> exact Target.isEnded_append _ rfl

/-- No line of a declaration opens the main block. Each of them ends with a semicolon or is a brace
by itself. -/
theorem areInner_of_plan (h : (d.plan scopes).outcome = .ok plan) : Lines.AreInner plan.lines := by
  obtain ⟨type, -, hcases⟩ := plan_cases h
  rcases hcases with ⟨-, hplan⟩ | ⟨call, members, position, -, hplan⟩ | ⟨first, -, hplan⟩
  · obtain ⟨own, -, rfl⟩ := eq_of_planDefault hplan
    exact areInner_defaultLines d.names (fun _ => own) id
  · obtain ⟨-, block, hblock, hlines⟩ := eq_of_planUnpacked hplan
    rw [hlines]
    exact .append (areInner_defaultLines _ Binding.type Binding.name) (areInner_of_unpack hblock)
  · obtain ⟨-, values, -, hplanned⟩ := planInitialized_eq_ok hplan
    exact areInner_of_planNames hplanned

end Declarations

section Assignments

open Assignment

variable {a : Assignment} {places : List Typed} {op : Arithmetic} {symbol : String}

/-- A swap is one line that ends with a semicolon. -/
theorem areInner_of_swap {targets values : List Expr}
    (h : (swap? targets values places).outcome = .ok (some l)) : l.opensMain = false := by
  obtain ⟨⟨first, second, -, -, rfl⟩, -⟩ := eq_of_swap h
  exact Line.not_opensMain_of_isEnded (Target.isEnded_append _ rfl)

/-- A compound assignment is one line that ends with a semicolon. -/
theorem areInner_of_compoundLine {place value : Typed}
    (h : (compoundLine op symbol place value p).outcome = .ok l) : l.opensMain = false := by
  rcases eq_of_compoundLine h with ⟨-, rfl⟩ | rfl
  · exact Line.not_opensMain_of_isEnded (Target.isEnded_append _ rfl)
  · refine Line.not_opensMain_of_isEnded ?_
    simp only [Line.flat, compoundText]
    split <;> exact Target.isEnded_append _ rfl

/-- Several compound assignments are a line each that ends with a semicolon. -/
theorem areInner_of_compoundLines {pairs : List (Typed × Expr)}
    (h : (compoundLines scopes op symbol pairs).outcome = .ok lines) : Lines.AreInner lines := by
  intro l hl
  obtain ⟨pair, -, value, -, hline⟩ := exists_left_of_mem (forall₂_of_compoundLines h) l hl
  exact areInner_of_compoundLine hline

/-- Several plain assignments are a line each that ends with a semicolon. -/
theorem areInner_of_plainLines {pairs : List (Typed × Expr)}
    (h : (plainLines scopes pairs).outcome = .ok lines) : Lines.AreInner lines := by
  intro l hl
  obtain ⟨pair, -, value, text, -, -, rfl⟩ := exists_left_of_mem (forall₂_of_plainLines h) l hl
  exact Line.not_opensMain_append _ _

/-- An assignment of any form becomes inner lines. -/
theorem areInner_of_assignLines (h : (a.assignLines scopes places).outcome = .ok lines) :
    Lines.AreInner lines := by
  rcases assignLines_cases h with ⟨line, hswap, rfl⟩ | ⟨call, members, position, -, hunpacked⟩ |
    ⟨-, -, hlines⟩
  · exact .cons (areInner_of_swap hswap) Lines.areInner_nil
  · exact areInner_of_unpack hunpacked
  · exact areInner_of_plainLines hlines

/-- No line of an assignment opens the main block. -/
theorem areInner_of_lines (h : (a.lines scopes).outcome = .ok lines) : Lines.AreInner lines := by
  obtain ⟨places, -, ⟨op, -, -, hlines⟩ | ⟨-, hlines⟩⟩ := lines_cases h
  · exact areInner_of_compoundLines hlines
  · exact areInner_of_assignLines hlines

end Assignments

/-- Expressions evaluated for their effect become a line each that ends with a semicolon. -/
theorem areInner_of_operationLines {es : List Expr}
    (h : (operationLines scopes es).outcome = .ok lines) : Lines.AreInner lines := by
  intro l hl
  obtain ⟨e, -, typed, -, -, rfl⟩ := exists_left_of_mem (forall₂_of_operationLines h) l hl
  exact Line.not_opensMain_append _ _

end Sprout
