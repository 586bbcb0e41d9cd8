import Sprout.Proofs.Files.Texts

namespace Sprout

variable {name stem extension : String}

/-- The stem and the extension of a name are around its last point. A name that only starts with a
point has no extension, and neither has the name of the folder above. -/
theorem splitExtension_eq_iff :
    splitExtension name = (stem, some extension) ↔
      name = stem ++ "." ++ extension ∧ stem ≠ "" ∧ '.' ∉ extension.toList ∧ name ≠ ".." := by
  have hdrop (cs : List Char) :
      cs.drop (cs.takeWhile (· ≠ '.')).length = cs.dropWhile (· ≠ '.') := by
    calc
      _ = (cs.takeWhile (· ≠ '.') ++ cs.dropWhile (· ≠ '.')).drop
          (cs.takeWhile (· ≠ '.')).length := by rw [List.takeWhile_append_dropWhile]
      _ = cs.dropWhile (· ≠ '.') := List.drop_left
  -- The name is read from behind: its extension is what comes before the first point.
  unfold splitExtension
  dsimp only
  rw [hdrop]
  constructor
  · intro h
    have hjoin := List.takeWhile_append_dropWhile (p := (· ≠ '.')) (l := name.toList.reverse)
    have hplain : ∀ c ∈ name.toList.reverse.takeWhile (· ≠ '.'), c ≠ '.' :=
      fun c hc => by simpa using List.mem_takeWhile_imp hc
    generalize name.toList.reverse.takeWhile (· ≠ '.') = taken at h hjoin hplain
    split at h
    · rename_i point c front hfound
      split at h
      · cases h
      · rename_i hname
        obtain ⟨rfl, hextension⟩ := Prod.mk.inj h
        obtain rfl := Option.some.inj hextension
        have hpoint : point = '.' := by
          have hhead := List.head?_dropWhile_not (· ≠ '.') name.toList.reverse
          rw [hfound] at hhead
          simpa using hhead
        rw [hfound, hpoint] at hjoin
        have hreversed := congrArg List.reverse hjoin
        rw [List.reverse_reverse] at hreversed
        refine ⟨?_, ?_, ?_, hname⟩
        · rw [← String.toList_inj, ← hreversed]
          simp
        · simp [← String.toList_inj]
        · simpa using fun hmem => hplain '.' hmem rfl
    · cases h
  · rintro ⟨rfl, hstem, hextension, hname⟩
    have hreversed : (stem ++ "." ++ extension).toList.reverse =
        extension.toList.reverse ++ '.' :: stem.toList.reverse := by simp
    have hplain : ∀ c ∈ extension.toList.reverse, decide (c ≠ '.') = true := by
      intro c hc
      simp only [decide_eq_true_eq]
      rintro rfl
      exact hextension (List.mem_reverse.1 hc)
    obtain ⟨c, front, hfront⟩ := List.exists_cons_of_ne_nil (l := stem.toList.reverse)
      (by simpa using hstem)
    rw [hreversed, List.takeWhile_append_of_pos hplain, List.dropWhile_append_of_pos hplain, hfront,
      List.dropWhile_cons_of_neg (by simp), List.takeWhile_cons_of_neg (by simp)]
    dsimp only
    rw [if_neg hname, ← hfront]
    simp

/-- Whether a text can be an extension. -/
structure IsExtension (extension : String) : Prop where
  nonempty : extension ≠ ""
  point : '.' ∉ extension.toList
  slash : '/' ∉ extension.toList

/-- A name with an extension is never the one of the parent. -/
theorem append_extension_ne (stem : String) (h : IsExtension extension) :
    stem ++ "." ++ extension ≠ ".." := by
  intro heq
  have hchars : extension.toList ≠ [] := by simpa using h.nonempty
  have hlast := congrArg (fun text => text.toList.getLast?) heq
  simp only [String.toList_append, List.getLast?_append, List.getLast?_eq_some_getLast hchars,
    Option.some_or] at hlast
  have hpoint : extension.toList.getLast hchars = '.' := Option.some.inj hlast
  exact h.point (hpoint ▸ List.getLast_mem hchars)

section Replaced

variable {new : String} (hnew : IsExtension new)

/-- A name with its extension replaced. What stays of the stem `.` names a folder. -/
theorem nameWithExtension_eq (h : splitExtension name = (stem, some extension)) :
    nameWithExtension name new = if stem = "." then ".." else stem ++ "." ++ new := by
  unfold nameWithExtension
  rw [h]

include hnew

/-- A name with its extension replaced leads somewhere. -/
theorem not_isIdle_nameWithExtension (h : splitExtension name = (stem, some extension)) :
    ¬ Path.IsIdle (nameWithExtension name new) := by
  rw [nameWithExtension_eq h]
  split
  · simp [Path.IsIdle]
  · have hchars : new.toList ≠ [] := by simpa using hnew.nonempty
    have hpoint : new.toList.getLast hchars ≠ '.' :=
      fun heq => hnew.point (heq ▸ List.getLast_mem hchars)
    rintro (hempty | hsingle)
    · simp at hempty
    · have hlast := congrArg (fun text => text.toList.getLast?) hsingle
      simp only [String.toList_append, List.getLast?_append,
        List.getLast?_eq_some_getLast hchars, Option.some_or] at hlast
      exact hpoint (Option.some.inj hlast)

/-- A name with its extension replaced is still a single name. -/
theorem slash_not_mem_nameWithExtension (h : splitExtension name = (stem, some extension))
    (hname : '/' ∉ name.toList) : '/' ∉ (nameWithExtension name new).toList := by
  rw [nameWithExtension_eq h]
  rw [(splitExtension_eq_iff.1 h).1] at hname
  split
  · simp
  · simp_all [hnew.slash]

/-- A name with its extension replaced has no other extension. -/
theorem eq_of_splitExtension_nameWithExtension {stem' extension' : String}
    (h : splitExtension name = (stem, some extension))
    (h' : splitExtension (nameWithExtension name new) = (stem', some extension')) :
    extension' = new := by
  obtain ⟨hname, hstem, -, -⟩ := splitExtension_eq_iff.1 h
  have hparent := (splitExtension_eq_iff.1 h').2.2.2
  rw [nameWithExtension_eq h] at h' hparent
  split at h'
  · rename_i hpoint
    exact absurd (if_pos hpoint) hparent
  · have hreplaced : splitExtension (stem ++ "." ++ new) = (stem, some new) :=
      splitExtension_eq_iff.2 ⟨rfl, hstem, hnew.point, append_extension_ne stem hnew⟩
    rw [hreplaced] at h'
    exact (Option.some.inj (Prod.mk.inj h').2).symm

/-- Names with one extension are kept apart when it is replaced. -/
theorem nameWithExtension_inj {name' stem' : String}
    (h : splitExtension name = (stem, some extension))
    (h' : splitExtension name' = (stem', some extension))
    (heq : nameWithExtension name new = nameWithExtension name' new) : name = name' := by
  have hstem : stem = stem' := by
    rw [nameWithExtension_eq h, nameWithExtension_eq h'] at heq
    split at heq <;> split at heq
    · simp [*]
    · exact absurd heq.symm (append_extension_ne stem' hnew)
    · exact absurd heq (append_extension_ne stem hnew)
    · simpa [← String.toList_inj] using heq
  rw [(splitExtension_eq_iff.1 h).1, (splitExtension_eq_iff.1 h').1, hstem]

end Replaced

namespace Path

/-- The extension of the last name of a path. -/
def extension? (path : Path) : Option String :=
  path.getLast?.bind fun name => (splitExtension name).2

/-- A path with the extension of its last name replaced. -/
def withExtension (path : Path) (extension : String) : Path :=
  path.dropLast ++ (path.getLast?.map (nameWithExtension · extension)).toList

variable {path path' : Path} {new : String}

/-- An extension stands behind the last dot of the last name. -/
theorem exists_of_extension? (h : path.extension? = some extension) :
    ∃ front name stem, path = front ++ [name] ∧ splitExtension name = (stem, some extension) := by
  obtain ⟨name, hname, hextension⟩ := Option.bind_eq_some_iff.1 h
  obtain ⟨front, rfl⟩ := List.getLast?_eq_some_iff.1 hname
  exact ⟨front, name, (splitExtension name).1, rfl, Prod.ext rfl hextension⟩

@[simp] theorem withExtension_concat (front : Path) (name : String) :
    withExtension (front ++ [name]) new = front ++ [nameWithExtension name new] := by
  simp [withExtension]

/-- The folders in front of a path do not matter for its extension. -/
theorem extension?_append (front : Path) (h : path.extension? = some extension) :
    extension? (front ++ path) = some extension := by
  obtain ⟨inner, name, stem, rfl, hname⟩ := exists_of_extension? h
  rw [extension?, ← List.append_assoc, List.getLast?_concat, Option.bind_some, hname]

/-- Paths with one extension are kept apart when it is replaced. -/
theorem withExtension_inj (hnew : IsExtension new) (h : path.extension? = some extension)
    (h' : path'.extension? = some extension)
    (heq : path.withExtension new = path'.withExtension new) : path = path' := by
  obtain ⟨front, name, stem, rfl, hname⟩ := exists_of_extension? h
  obtain ⟨front', name', stem', rfl, hname'⟩ := exists_of_extension? h'
  rw [withExtension_concat, withExtension_concat] at heq
  obtain ⟨rfl, hnames⟩ := List.append_inj' heq rfl
  rw [nameWithExtension_inj hnew hname hname' (List.singleton_inj.1 hnames)]

/-- A path with its extension replaced does not have the old one: a name with an extension is a stem
that is not empty, a point, and an extension without points. -/
theorem extension?_withExtension_ne (hnew : IsExtension new) (hne : new ≠ extension)
    (h : path.extension? = some extension) :
    (path.withExtension new).extension? ≠ some extension := by
  obtain ⟨front, name, stem, rfl, hname⟩ := exists_of_extension? h
  rw [withExtension_concat]
  intro hold
  obtain ⟨front', name', stem', hconcat, hname'⟩ := exists_of_extension? hold
  obtain ⟨-, hnames⟩ := List.append_inj' hconcat rfl
  rw [← List.singleton_inj.1 hnames] at hname'
  exact hne (eq_of_splitExtension_nameWithExtension hnew hname hname').symm

end Path

/-- What a run writes has an extension that sources do not have. -/
theorem Emit.extension_isExtension (emit : Emit) :
    IsExtension emit.extension ∧ emit.extension ≠ "spr" := by
  refine ⟨⟨?_, ?_, ?_⟩, ?_⟩ <;> cases emit <;> simp [extension]

end Sprout
