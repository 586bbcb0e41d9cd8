import Sprout.Proofs.Domains.Crashes
import Sprout.Proofs.Lexing.Tiling
import Sprout.Proofs.Places.Statements

namespace Sprout

namespace Position

/-- Whether the line and the column of a place fit the 32 bits in which they are counted. -/
def Fits (p : Position) : Prop :=
  p.line < 2 ^ 32 ∧ p.column < 2 ^ 32

instance (p : Position) : Decidable p.Fits :=
  inferInstanceAs (Decidable (_ ∧ _))

/-- A place whose line and column have been computed in 32 bits. There is none past them: an
addition that overflows is no place to go on from, but the crash of what asks for it. -/
def counted? (p : Position) : Option Position :=
  if p.Fits then some p else none

/-- The place just past `c`, counted from where `c` stands. -/
def next? (p : Position) (c : Char) : Option Position :=
  (p.next c).counted?

/-- The place just past a text, counted from character to character. -/
def after? (p : Position) (text : List Char) : Option Position :=
  text.foldlM next? p

variable {p q : Position} {text front back : List Char}

/-- A place is reached if it fits 32 bits, and it is then the exact one. -/
theorem counted?_eq_some_iff : p.counted? = some q ↔ p.Fits ∧ p = q := by
  rw [counted?]
  split <;> simp [*]

/-- Counting starts inside 32 bits. -/
theorem fits_start : start.Fits := by
  decide

/-- A text is counted from its first character on, and no further than counting that one
succeeds. -/
theorem after?_cons (p : Position) (c : Char) (text : List Char) :
    p.after? (c :: text) = (p.next? c).bind (·.after? text) := by
  rw [after?, List.foldlM_cons]
  rfl

/-- Two texts are counted one behind the other. -/
theorem after?_append (p : Position) (front back : List Char) :
    p.after? (front ++ back) = (p.after? front).bind (·.after? back) := by
  rw [after?, List.foldlM_append]
  rfl

/-- Counting through a text counts its first characters, and goes on where they end. -/
theorem exists_of_after?_cons {c : Char} {rest : List Char} (more : Nat)
    (h : p.after? (c :: rest) = some q) :
    ∃ r, p.after? (c :: rest.take more) = some r ∧ r.after? (rest.drop more) = some q := by
  rw [show c :: rest = (c :: rest.take more) ++ rest.drop more by
    rw [List.cons_append, List.take_append_drop], after?_append] at h
  exact Option.bind_eq_some_iff.1 h

/-- Counting that comes to an end reaches the place just past the text, and has passed only places
that fit 32 bits on its way. -/
theorem after?_eq_some (hp : p.Fits) (h : p.after? text = some q) :
    q = p.after text ∧ ∀ front back, text = front ++ back → (p.after front).Fits := by
  induction text generalizing p with
  | nil =>
    cases h
    refine ⟨rfl, fun front back htext => ?_⟩
    rw [(List.append_eq_nil_iff.1 htext.symm).1]
    exact hp
  | cons c text ih =>
    rw [after?_cons] at h
    obtain ⟨r, hnext, h⟩ := Option.bind_eq_some_iff.1 h
    obtain ⟨hfits, rfl⟩ := counted?_eq_some_iff.1 hnext
    obtain ⟨hend, hplaces⟩ := ih hfits h
    refine ⟨hend, fun front back htext => ?_⟩
    cases front with
    | nil => exact hp
    | cons d front =>
      obtain ⟨rfl, hrest⟩ := List.cons.inj htext
      exact hplaces front back hrest

/-- Where counting comes to an end, the exact place is reached, and it fits 32 bits. -/
theorem fits_of_after? (hp : p.Fits) (h : p.after? text = some q) : q.Fits ∧ p.after text = q := by
  obtain ⟨rfl, hplaces⟩ := after?_eq_some hp h
  exact ⟨hplaces text [] (List.append_nil text).symm, rfl⟩

/-- Counting comes to an end where every place on its way fits 32 bits. -/
theorem after?_eq (h : ∀ front back, text = front ++ back → (p.after front).Fits) :
    p.after? text = some (p.after text) := by
  induction text generalizing p with
  | nil => rfl
  | cons c text ih =>
    have hnext : p.next? c = some (p.next c) := if_pos (h [c] text rfl)
    rw [after?_cons, hnext, Option.bind_some, ih fun front back htext => ?_, after_cons]
    exact h (c :: front) back (by rw [htext, List.cons_append])

end Position

namespace Source

/-- Whether every place of a text, the one behind its end included, has a line and a column that fit
32 bits: one more than the line feeds before it, and one more than the characters behind the last of
these. -/
def Fits (source : Source) : Prop :=
  ∀ front back, source.text.toList = front ++ back → (Position.behind front).Fits

/-- The text has a line or a column past 32 bits only if the line feeds, or all other characters,
are too many. -/
theorem fits_of_counts {source : Source}
    (hfeeds : source.text.toList.count '\n' + 1 < 2 ^ 32)
    (hothers : source.text.toList.countP (· ≠ '\n') + 1 < 2 ^ 32) : source.Fits := by
  intro front back htext
  rw [htext] at hfeeds hothers
  rw [List.count_append] at hfeeds
  rw [List.countP_append] at hothers
  have hline : (front.reverse.takeWhile (· ≠ '\n')).length ≤ front.countP (· ≠ '\n') := by
    have hall := List.all_takeWhile (p := (· ≠ '\n')) (l := front.reverse)
    rw [List.all_eq_true] at hall
    calc (front.reverse.takeWhile (· ≠ '\n')).length
        = (front.reverse.takeWhile (· ≠ '\n')).countP (· ≠ '\n') :=
          (List.countP_eq_length.2 hall).symm
      _ ≤ front.reverse.countP (· ≠ '\n') := (List.takeWhile_sublist _).countP_le
      _ = front.countP (· ≠ '\n') := List.countP_reverse
  constructor <;> dsimp only [Position.behind] <;> omega

/-- A text of fewer than 2 ^ 32 characters fits, unless it has just one less than that and they are
all line feeds, or none is. -/
theorem fits_of_length {source : Source} (hlength : source.text.length < 2 ^ 32)
    (hmixed : source.text.length = 2 ^ 32 - 1 →
      '\n' ∈ source.text.toList ∧ ∃ c ∈ source.text.toList, c ≠ '\n') : source.Fits := by
  have hcounts := List.length_eq_countP_add_countP (· = '\n') (l := source.text.toList)
  have hfeeds : source.text.toList.countP (· = '\n') = source.text.toList.count '\n' := by
    rw [List.count_eq_countP]
    rfl
  rw [String.length_toList, hfeeds] at hcounts
  simp only [decide_eq_true_eq, decide_not] at hcounts
  rcases Nat.lt_or_ge (source.text.length + 1) (2 ^ 32) with hshort | hlong
  · refine fits_of_counts (by omega) ?_
    simp only [decide_not]
    omega
  · obtain ⟨hfeed, c, hmem, hc⟩ := hmixed (by omega)
    have hsome : 0 < source.text.toList.count '\n' := List.count_pos_iff.2 hfeed
    have hother : 0 < source.text.toList.countP (· ≠ '\n') :=
      List.countP_pos_iff.2 ⟨c, hmem, by simpa using hc⟩
    refine fits_of_counts ?_ ?_ <;> simp only [decide_not] at hcounts hother ⊢ <;> omega

end Source

namespace Expr

/-- The end of a run that stops too early, one column behind its last token, if that column fits 32
bits. -/
def endingOf? (run : List Token) : Option (Defect Malformed) :=
  if (endingOf run).position.Fits then some (endingOf run) else none

/-- What is reported when a run cannot be read. The column behind the run is computed only if it
stops too early, and cannot be computed past 32 bits. -/
def reported? (run : List Token) (defect : Defect Malformed) : Option (Defect Malformed) :=
  if defect = endingOf run then endingOf? run else some defect

/-- Reads a whole run as one expression. -/
def parse? (run : List Token) : Except (Option (Defect Malformed)) Expr :=
  (parse run).mapError (reported? run)

/-- Reads a whole run as expressions between commas. -/
def parseList? (run : List Token) : Except (Option (Defect Malformed)) (List Expr) :=
  (parseList run).mapError (reported? run)

/-- Reads a whole run as a type. -/
def parseType? (run : List Token) : Except (Option (Defect Malformed)) Expr :=
  (parseType run).mapError (reported? run)

variable {run : List Token}

/-- What is blamed on a place that fits 32 bits can be reported, also if it is the end of the run. -/
theorem mapError_reported? {α : Type} {x : Except (Defect Malformed) α}
    (hx : RefusesIn Position.Fits x) : x.mapError (reported? run) = x.mapError some := by
  cases x with
  | ok a => rfl
  | error defect =>
    have hfits : defect.position.Fits := hx defect rfl defect.position rfl
    refine congrArg Except.error ?_
    rw [reported?]
    split
    · rename_i hending
      rw [endingOf?, ← hending, if_pos hfits]
    · rfl

/-- An expression is read, or refused at a place that can be computed, from tokens whose places fit
32 bits. The end of the run is one of these places wherever it is reported. -/
theorem parse?_eq (hrun : Token.AllIn Position.Fits run) : parse? run = (parse run).mapError some :=
  mapError_reported? (refusesIn_parse hrun fun _ => Position.fits_start)

/-- Expressions between commas are read, or refused at a place that can be computed, from such
tokens. -/
theorem parseList?_eq (hrun : Token.AllIn Position.Fits run) :
    parseList? run = (parseList run).mapError some :=
  mapError_reported? (refusesIn_parseList hrun fun _ => Position.fits_start)

/-- A type is read, or refused at a place that can be computed, from such tokens. -/
theorem parseType?_eq (hrun : Token.AllIn Position.Fits run) :
    parseType? run = (parseType run).mapError some :=
  mapError_reported? (refusesIn_parseType hrun fun _ => Position.fits_start)

end Expr

end Sprout
