import Sprout.Proofs.Files.Texts
import Sprout.Proofs.Outcome

namespace Sprout

namespace Path

/-- Whether names that lead up, or to the root, stand in front of all others. -/
def IsNormal (path : Path) : Prop :=
  ∃ up down, path = up ++ down ∧ (∀ name ∈ up, name = "" ∨ name = "..") ∧
    ∀ name ∈ down, name ≠ "" ∧ name ≠ ".."

variable {path : Path} {name : String}

/-- Any other name goes one folder deeper. -/
theorem push_of_plain (hidle : ¬ IsIdle name) (hparent : name ≠ "..") :
    path.push name = path ++ [name] := by
  have hnotIdle : ¬ (decide (name = "") || decide (name = ".")) = true := by
    simpa [IsIdle] using hidle
  unfold push
  rw [if_neg hnotIdle, if_neg hparent]

/-- Plain names are walked down one after the other. -/
theorem foldl_push_of_isName {names : List String} (h : ∀ name ∈ names, IsName name) (path : Path) :
    names.foldl push path = path ++ names := by
  induction names generalizing path with
  | nil => simp
  | cons name names ih =>
    rw [List.forall_mem_cons] at h
    rw [List.foldl_cons, push_of_plain h.1.idle h.1.parent, ih h.2, List.append_assoc,
      List.singleton_append]

/-- Where the name of the folder above leads: up, if the path does nothing but lead up so far, or
back by one name. -/
theorem push_parent (h : path.IsNormal) :
    (path.push "..").all (fun name => name = "" || name = "..") = true ∨
      ∃ name, path = path.push ".." ++ [name] := by
  obtain ⟨up, down, rfl, hup, hdown⟩ := h
  rcases List.eq_nil_or_concat down with rfl | ⟨front, last, rfl⟩
  · left
    have hall : up.all (fun name => name = "" || name = "..") = true := by simpa using hup
    rw [List.append_nil]
    unfold push
    rw [if_neg (by decide), if_pos rfl]
    split
    · rfl
    · exact hall
    · simpa using hup
    · rename_i last hfirst hsecond hlast
      rcases hup last (List.mem_of_getLast? hlast) with rfl | rfl
      · exact absurd rfl hfirst
      · exact absurd rfl hsecond
  · right
    have hlast := hdown last (by simp)
    refine ⟨last, ?_⟩
    unfold push
    rw [if_neg (by decide), if_pos rfl, List.concat_eq_append, ← List.append_assoc,
      List.getLast?_concat]
    split
    · simp_all
    · simp_all
    · simp_all
    · rw [List.dropLast_concat]

/-- A normal path stays so without its last name. -/
theorem IsNormal.dropLast (h : path.IsNormal) : IsNormal path.dropLast := by
  obtain ⟨up, down, rfl, hup, hdown⟩ := h
  rcases List.eq_nil_or_concat down with rfl | ⟨front, last, rfl⟩
  · rw [List.append_nil]
    exact ⟨_, [], (List.append_nil _).symm, fun name h => hup name (List.dropLast_subset up h),
      by simp⟩
  · rw [List.concat_eq_append, ← List.append_assoc, List.dropLast_concat]
    exact ⟨up, front, rfl, hup, fun name h => hdown name (by simp [h])⟩

/-- A step from a normal path leads to one. -/
theorem IsNormal.push (h : path.IsNormal) (name : String) : (path.push name).IsNormal := by
  by_cases hidle : IsIdle name
  · rwa [push_of_isIdle hidle]
  by_cases hparent : name = ".."
  · subst hparent
    rcases push_parent h with hall | ⟨last, hlast⟩
    · exact ⟨_, [], (List.append_nil _).symm, by simpa using hall, by simp⟩
    · have hfront := h.dropLast
      rwa [hlast, List.dropLast_concat] at hfront
  · obtain ⟨up, down, rfl, hup, hdown⟩ := h
    rw [push_of_plain hidle hparent]
    refine ⟨up, down ++ [name], List.append_assoc .., hup, ?_⟩
    rw [List.forall_mem_append, List.forall_mem_singleton]
    exact ⟨hdown, fun hempty => hidle (.inl hempty), hparent⟩

/-- A path starts at the root or where the program runs, and both are normal. -/
theorem isNormal_startOf (first : String) : (startOf first).IsNormal := by
  refine ⟨startOf first, [], (List.append_nil _).symm, ?_, by simp⟩
  unfold startOf
  split <;> simp

/-- Any number of steps from a normal path lead to one. -/
theorem IsNormal.foldl (h : path.IsNormal) (names : List String) :
    (names.foldl Path.push path).IsNormal := by
  induction names generalizing path with
  | nil => exact h
  | cons name names ih => exact ih (h.push name)

end Path

namespace FileTree

variable {tree tree' : FileTree} {path : Path} {names : List String}

/-- A path is a folder if it goes nowhere, if a folder was made there or below, or if a file stands
below. -/
theorem isFolder_iff :
    tree.isFolder path = true ↔
      (∀ name ∈ path, name = "" ∨ name = "..") ∨ (∃ folder ∈ tree.folders, path <+: folder) ∨
        ∃ file ∈ tree.files, path <+: file.1 ∧ path ≠ file.1 := by
  simp [isFolder, or_assoc]

/-- What a folder lies in is a folder. -/
theorem isFolder_of_front {front : Path} (h : tree.isFolder path = true)
    (hfront : front <+: path) : tree.isFolder front = true := by
  rw [isFolder_iff] at h ⊢
  rcases h with hup | ⟨folder, hmem, hfolder⟩ | ⟨file, hmem, hfile, hne⟩
  · exact .inl fun name hname => hup name (hfront.subset hname)
  · exact .inr (.inl ⟨folder, hmem, hfront.trans hfolder⟩)
  · refine .inr (.inr ⟨file, hmem, hfront.trans hfile, ?_⟩)
    rintro rfl
    exact hne (hfile.eq_of_length_le hfront.length_le)

/-- The folder that a folder lies in is one. -/
theorem isFolder_push_parent (h : tree.isFolder path = true) (hnormal : path.IsNormal) :
    tree.isFolder (path.push "..") = true := by
  rcases Path.push_parent hnormal with hall | ⟨last, hlast⟩
  · rw [isFolder, hall, Bool.true_or, Bool.true_or]
  · exact isFolder_of_front h ⟨[last], hlast.symm⟩

/-- Whether names are followed through folders, from a path on. Each name is looked up in the folder
that the names in front of it lead to. -/
def Leads (tree : FileTree) : Path → List String → Prop
  | _, [] => True
  | path, name :: names =>
    tree.isFolder path = true ∧ Path.isTooLong name = false ∧ tree.Leads (path.push name) names

/-- Names are followed if every step passes through folders, and lead where they say. -/
theorem follow_eq_ok_iff {found : Path} :
    tree.follow path names = .ok found ↔
      tree.Leads path names ∧ found = names.foldl Path.push path := by
  induction names generalizing path with
  | nil =>
    rw [follow, Except.ok.injEq, Leads, List.foldl_nil, true_and, eq_comm]
  | cons name names ih =>
    rw [follow, Leads, List.foldl_cons]
    by_cases hfolder : tree.isFolder path = true
    · by_cases hlong : Path.isTooLong name = true
      · simp [hfolder, hlong]
      · rw [if_pos hfolder, if_neg hlong, ih]
        simp [hfolder, hlong]
    · simp [hfolder]

/-- Where names lead depends on which paths are folders. -/
theorem Leads.congr (h : tree.Leads path names)
    (hfolders : ∀ p, tree'.isFolder p = tree.isFolder p) : tree'.Leads path names := by
  induction names generalizing path with
  | nil => trivial
  | cons name names ih => exact ⟨(hfolders path).trans h.1, h.2.1, ih h.2.2⟩

/-- Whether names lead through folders only, from the one behind a path on. -/
def Passes (tree : FileTree) : Path → List String → Prop
  | _, [] => True
  | path, name :: names =>
    tree.isFolder (path.push name) = true ∧ tree.Passes (path.push name) names

/-- What leads to a name passes through folders. -/
theorem Leads.passes {name : String} (h : tree.Leads path (names ++ [name])) :
    tree.Passes path names ∧ tree.isFolder (names.foldl Path.push path) = true := by
  induction names generalizing path with
  | nil => exact ⟨trivial, h.1⟩
  | cons next names ih =>
    obtain ⟨hpasses, hfolder⟩ := ih h.2.2
    refine ⟨⟨?_, hpasses⟩, hfolder⟩
    cases names with
    | nil => exact hfolder
    | cons => exact h.2.2.1

/-- A way that passes through folders does so on its first part. -/
theorem Passes.left {more : List String} (h : tree.Passes path (names ++ more)) :
    tree.Passes path names := by
  induction names generalizing path with
  | nil => trivial
  | cons name names ih => exact ⟨h.1, ih h.2⟩

/-- Whether a way passes depends on which paths are folders. -/
theorem Passes.congr (h : tree.Passes path names)
    (hfolders : ∀ p, tree'.isFolder p = tree.isFolder p) : tree'.Passes path names := by
  induction names generalizing path with
  | nil => trivial
  | cons name names ih => exact ⟨(hfolders _).trans h.1, ih h.2⟩

/-- Whether no file is in the way of the folders that names stand for. -/
def Clears (tree : FileTree) : Path → List String → Prop
  | _, [] => True
  | path, name :: names =>
    Path.isTooLong name = false ∧ tree.file? (path.push name) = none ∧
      tree.Clears (path.push name) names

/-- A way stays clear of files in another tree that has the same folders and the same files in
them. -/
theorem Clears.congr (h : tree.Clears path names) (hpasses : tree.Passes path names)
    (hfiles : ∀ p, tree.isFolder p = true → tree'.file? p = tree.file? p) :
    tree'.Clears path names := by
  induction names generalizing path with
  | nil => trivial
  | cons name names ih =>
    exact ⟨h.1, (hfiles _ hpasses.1).trans h.2.1, ih h.2.2 hpasses.2⟩

/-- A way stays clear of files in another tree with the same files. -/
theorem Clears.of_files (h : tree.Clears path names) (hfiles : tree'.files = tree.files) :
    tree'.Clears path names := by
  induction names generalizing path with
  | nil => trivial
  | cons name names ih =>
    refine ⟨h.1, ?_, ih h.2.2⟩
    rw [file?, hfiles]
    exact h.2.1

/-- Making folders touches no file, and no folder goes away, by induction on the names. That it can
be done says that no file is in the way. -/
theorem clears_of_makeAlong {made : Bool} (h : tree.makeAlong path made names = .ok tree') :
    tree.Clears path names ∧ tree'.files = tree.files ∧
      ∀ p, tree.isFolder p = true → tree'.isFolder p = true := by
  induction names generalizing tree path made with
  | nil =>
    cases h
    exact ⟨trivial, rfl, fun _ h => h⟩
  | cons name names ih =>
    rw [makeAlong] at h
    split at h
    · cases h
    · rename_i hlong
      split at h
      · cases h
      · rename_i hfree
        obtain ⟨hclears, hfiles, hfolders⟩ := ih h
        refine ⟨⟨by simpa using hlong, by simpa using hfree, ?_⟩, hfiles, fun p hp => ?_⟩
        · exact hclears.of_files rfl
        · refine hfolders p ?_
          rw [isFolder_iff] at hp ⊢
          rcases hp with hup | ⟨folder, hmem, hfolder⟩ | hfile
          · exact .inl hup
          · exact .inr (.inl ⟨folder, List.mem_cons_of_mem _ hmem, hfolder⟩)
          · exact .inr (.inr hfile)

/-- Another folder where there is one already makes no difference. -/
theorem isFolder_cons {folder : Path} (h : tree.isFolder folder = true) (p : Path) :
    isFolder { tree with folders := folder :: tree.folders } p = tree.isFolder p := by
  rw [Bool.eq_iff_iff, isFolder_iff, isFolder_iff]
  constructor
  · rintro (hup | ⟨other, hmem, hother⟩ | hfile)
    · exact .inl hup
    · rcases List.mem_cons.1 hmem with rfl | hmem
      · exact isFolder_iff.1 (isFolder_of_front h hother)
      · exact .inr (.inl ⟨other, hmem, hother⟩)
    · exact .inr (.inr hfile)
  · rintro (hup | ⟨other, hmem, hother⟩ | hfile)
    · exact .inl hup
    · exact .inr (.inl ⟨other, List.mem_cons_of_mem _ hmem, hother⟩)
    · exact .inr (.inr hfile)

/-- Where the folders are there and no file is in the way, making them changes nothing. Making
folders goes the same way as following a path. -/
theorem makeAlong_of_passes (hclears : tree.Clears path names) (hpasses : tree.Passes path names)
    (made : Bool) :
    ∃ tree', tree.makeAlong path made names = .ok tree' ∧ tree'.files = tree.files ∧
      ∀ p, tree'.isFolder p = tree.isFolder p := by
  induction names generalizing tree path made with
  | nil => exact ⟨tree, rfl, rfl, fun _ => rfl⟩
  | cons name names ih =>
    obtain ⟨hshort, hfree, hclears⟩ := hclears
    obtain ⟨hfolder, hpasses⟩ := hpasses
    have hsame := isFolder_cons hfolder
    have hnext : Clears { tree with folders := path.push name :: tree.folders } (path.push name)
        names := hclears.of_files rfl
    obtain ⟨tree', hmake, hfiles, hfolders⟩ :=
      ih hnext (hpasses.congr hsame) (made || !tree.isFolder (path.push name))
    refine ⟨tree', ?_, hfiles, fun p => (hfolders p).trans (hsame p)⟩
    rw [makeAlong, hshort, hfree]
    exact hmake

end FileTree

end Sprout
