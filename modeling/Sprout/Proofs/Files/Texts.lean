import Mathlib.Data.List.TakeWhile
import Sprout.Command
import Sprout.Proofs.Text.Splitting

namespace Sprout

open String (toList_intercalate)

/-- Names joined by slashes, for names without one, are the parts of the text again. -/
theorem splitAt_joined {names : List String} (hne : names ≠ [])
    (h : ∀ name ∈ names, '/' ∉ name.toList) :
    (splitAt '/' ("/".intercalate names).toList).map String.ofList = names := by
  have hparts : ∀ part ∈ names.map String.toList, '/' ∉ part := by simpa using h
  rw [toList_intercalate]
  change (splitAt '/' (['/'].intercalate _)).map _ = _
  rw [splitAt_intercalate (by simpa using hne) hparts, List.map_map]
  simp [Function.comp_def]

/-- Every text joins names without slashes. -/
theorem exists_joined (text : String) :
    ∃ names, names ≠ [] ∧ (∀ name ∈ names, '/' ∉ name.toList) ∧ text = "/".intercalate names := by
  refine ⟨(splitAt '/' text.toList).map String.ofList, by simpa using splitAt_ne_nil _ _, ?_, ?_⟩
  · have hparts : ∀ part ∈ splitAt '/' text.toList, '/' ∉ part := not_mem_of_mem_splitAt
    simpa using hparts
  · rw [← String.toList_inj, toList_intercalate, List.map_map]
    change _ = ['/'].intercalate _
    have hid : String.toList ∘ String.ofList = id := by
      funext cs
      simp
    rw [hid, List.map_id, intercalate_splitAt]

namespace Path

/-- Where the names of a text start from, by its first name: an empty one is the root. -/
def startOf (first : String) : Path :=
  if first = "" then [""] else []

/-- The names that a text counts from there, given its first name. -/
def countedFrom (first : String) (others : List String) : List String :=
  if first = "" then others else first :: others

variable {first name : String} {others : List String}

/-- More names count behind the ones before. -/
theorem countedFrom_append (first : String) (others more : List String) :
    countedFrom first (others ++ more) = countedFrom first others ++ more := by
  unfold countedFrom
  split <;> rfl

/-- A path that is written out of names has these names, apart from those that stand for no step. -/
theorem names_joined (hne : first = "" → others ≠ [])
    (h : ∀ name ∈ first :: others, '/' ∉ name.toList) :
    names ("/".intercalate (first :: others)) = (startOf first, countedFrom first others) := by
  have hparts := splitAt_joined (List.cons_ne_nil first others) h
  unfold names startOf countedFrom
  cases hsplit : splitAt '/' ("/".intercalate (first :: others)).toList with
  | nil => exact absurd hsplit (splitAt_ne_nil _ _)
  | cons part rest =>
    rw [hsplit, List.map_cons, List.cons.injEq] at hparts
    obtain ⟨rfl, rfl⟩ := hparts
    cases part with
    | nil =>
      cases rest with
      | nil => exact absurd rfl (hne rfl)
      | cons next rest => rfl
    | cons c part =>
      have hfirst : String.ofList (c :: part) ≠ "" := by simp [← String.toList_inj]
      rw [if_neg hfirst, if_neg hfirst]
      rfl

/-- Empty names and single points lead nowhere. -/
def IsIdle (name : String) : Prop :=
  name = "" ∨ name = "."

/-- Whether a text is the name of a file or a folder in another folder. -/
structure IsName (name : String) : Prop where
  idle : ¬ IsIdle name
  parent : name ≠ ".."
  slash : '/' ∉ name.toList

/-- An idle name, such as a single dot, is no step. -/
theorem push_of_isIdle (h : IsIdle name) (path : Path) : path.push name = path := by
  unfold push
  rcases h with rfl | rfl <;> rfl

/-- The text of the folder that a path lies in joins the first ones of the names in front of the last
one: it leaves out idle names at their end. -/
theorem exists_parentText (h : ∀ part ∈ first :: (others ++ [name]), '/' ∉ part.toList)
    (hname : ¬ IsIdle name) :
    ∃ kept, kept <+: others ∧
      parentText ("/".intercalate (first :: (others ++ [name]))) =
        "/".intercalate (first :: kept) := by
  have hparts : splitAt '/' ("/".intercalate (first :: (others ++ [name]))).toList =
      first.toList :: (others ++ [name]).map String.toList := by
    have hjoined := congrArg (List.map String.toList) (splitAt_joined (List.cons_ne_nil first _) h)
    simpa [Function.comp_def] using hjoined
  let isIdle (name : List Char) : Bool := name = [] || name = ['.']
  have hlast : ¬ isIdle name.toList = true := by
    have hempty : name.toList = "".toList ↔ name = "" := String.toList_inj
    have hpoint : name.toList = ".".toList ↔ name = "." := String.toList_inj
    rw [IsIdle, ← hempty, ← hpoint] at hname
    simpa [isIdle] using hname
  refine ⟨(others.reverse.dropWhile (isIdle ∘ String.toList)).reverse, ?_, ?_⟩
  · rw [← List.reverse_suffix, List.reverse_reverse]
    exact List.dropWhile_suffix _
  · have hbehind : ((others ++ [name]).map String.toList).reverse.dropWhile isIdle =
        name.toList :: others.reverse.map String.toList := by
      rw [List.map_append, List.map_singleton, List.reverse_append, List.reverse_singleton,
        List.singleton_append, List.dropWhile_cons_of_neg hlast, List.map_reverse]
    unfold parentText
    rw [hparts]
    dsimp only
    rw [hbehind]
    dsimp only
    rw [List.dropWhile_map, ← List.map_reverse]
    simp [isIdle, Function.comp_def]

end Path

/-- A text with the extension of its last name replaced joins the same names but the last. -/
theorem withExtension_joined {names : List String} (hne : names ≠ []) {name : String}
    (hname : '/' ∉ name.toList) (extension : String) :
    withExtension ("/".intercalate (names ++ [name])) extension =
      "/".intercalate (names ++ [nameWithExtension name extension]) := by
  have hjoined (last : String) : "/".intercalate (names ++ [last]) =
      "/".intercalate names ++ "/" ++ last := by
    rw [String.intercalate_append_of_ne_nil hne (List.cons_ne_nil _ _),
      String.intercalate_singleton]
  have hslash : ∀ c ∈ name.toList.reverse, decide (c ≠ '/') = true := by
    intro c hc
    simp only [decide_eq_true_eq]
    rintro rfl
    exact hname (List.mem_reverse.1 hc)
  have hreversed : ("/".intercalate names ++ "/" ++ name).toList.reverse =
      name.toList.reverse ++ '/' :: ("/".intercalate names).toList.reverse := by
    simp
  rw [hjoined, hjoined, withExtension, hreversed, List.takeWhile_append_of_pos hslash,
    List.dropWhile_append_of_pos hslash]
  simp [← String.toList_inj]

/-- Joined names end as the last of them does, unless it is empty. -/
theorem getLast?_joined (front : List String) {last : String} (hlast : last ≠ "") :
    ("/".intercalate (front ++ [last])).toList.getLast? = last.toList.getLast? := by
  have hchars : last.toList ≠ [] := by simpa using hlast
  cases front with
  | nil => simp
  | cons first inner =>
    rw [String.intercalate_append_of_ne_nil (List.cons_ne_nil _ _) (List.cons_ne_nil _ _),
      String.intercalate_singleton, String.toList_append, List.getLast?_append,
      List.getLast?_eq_some_getLast hchars, Option.some_or]

/-- The text of a path that counts from a directory, as a walk through the directory gives it. -/
def textBelow (directory : String) (path : Path) : String :=
  (if directory.toList.getLast? = some '/' then directory else directory ++ "/") ++ path.render

/-- What lies below a directory has the names of the directory in front of its own. A path text is
its names between slashes, so its folder and its extension are known by the names it joins. -/
theorem exists_textBelow {directory : String} (hne : directory ≠ "") :
    ∃ first inner, (∀ name ∈ first :: inner, '/' ∉ name.toList) ∧
      Path.ofText directory = (Path.countedFrom first inner).foldl Path.push (Path.startOf first) ∧
      ∀ path : Path, path ≠ [] →
        textBelow directory path = "/".intercalate (first :: (inner ++ path)) := by
  obtain ⟨names, hnames, hslash, rfl⟩ := exists_joined directory
  have hsplit : names = names.dropLast ++ [names.getLast hnames] :=
    (List.dropLast_concat_getLast hnames).symm
  generalize names.dropLast = front, names.getLast hnames = last at hsplit
  subst hsplit
  have hofText {first : String} {inner : List String} (hcounted : first = "" → inner ≠ [])
      (h : ∀ name ∈ first :: inner, '/' ∉ name.toList) :
      Path.ofText ("/".intercalate (first :: inner)) =
        (Path.countedFrom first inner).foldl Path.push (Path.startOf first) := by
    rw [Path.ofText, Path.names_joined hcounted h]
  by_cases hlast : last = ""
  · -- the text ends with a slash, behind which the last name is empty
    subst hlast
    cases front with
    | nil => exact absurd rfl hne
    | cons first inner =>
      have hdirectory : "/".intercalate (first :: inner ++ [""]) =
          "/".intercalate (first :: inner) ++ "/" := by
        rw [String.intercalate_append_of_ne_nil (List.cons_ne_nil _ _) (List.cons_ne_nil _ _)]
        simp
      refine ⟨first, inner, fun name hname => hslash name (List.mem_append_left _ hname), ?_, ?_⟩
      · rw [List.cons_append, hofText (by simp) (by simpa using hslash), Path.countedFrom_append,
          List.foldl_append]
        rfl
      · intro path hpath
        have hends : ("/".intercalate (first :: inner) ++ "/").toList.getLast? = some '/' := by
          simp
        rw [textBelow, hdirectory, if_pos hends, Path.render, ← List.cons_append,
          String.intercalate_append_of_ne_nil (List.cons_ne_nil _ _) hpath]
  · have hends : ("/".intercalate (front ++ [last])).toList.getLast? ≠ some '/' := by
      rw [getLast?_joined front hlast]
      exact fun h => hslash last (by simp) (List.mem_of_getLast? h)
    obtain ⟨first, inner, hfront⟩ := List.exists_cons_of_ne_nil hnames
    rw [hfront] at hslash hends ⊢
    refine ⟨first, inner, hslash, hofText ?_ hslash, fun path hpath => ?_⟩
    · rintro rfl rfl
      cases front with
      | nil => exact hlast (List.cons.inj hfront).1
      | cons first front => simp at hfront
    · rw [textBelow, if_neg hends, Path.render, ← List.cons_append,
        String.intercalate_append_of_ne_nil (List.cons_ne_nil _ _) hpath]

/-- The text of what lies below a directory, with the extension of its last name replaced. -/
theorem withExtension_textBelow {directory name : String} (hne : directory ≠ "")
    (hname : '/' ∉ name.toList) (front : Path) (extension : String) :
    withExtension (textBelow directory (front ++ [name])) extension =
      textBelow directory (front ++ [nameWithExtension name extension]) := by
  obtain ⟨first, inner, -, -, hbelow⟩ := exists_textBelow hne
  rw [hbelow _ (by simp), hbelow _ (by simp), ← List.append_assoc, ← List.cons_append,
    withExtension_joined (List.cons_ne_nil _ _) hname, List.cons_append, List.append_assoc]

end Sprout
