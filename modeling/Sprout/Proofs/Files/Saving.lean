import Sprout.Proofs.Files.Walking

namespace Sprout

namespace FileTree

variable {files tree tree' : FileTree} {path p : Path} {text content : String}

/-- The entry of another path is found whether or not one path is left out. -/
theorem lookup_filter_ne {entries : List (Path × String)} (hp : p ≠ path) :
    (entries.filter (·.1 ≠ path)).lookup p = entries.lookup p := by
  induction entries with
  | nil => rfl
  | cons entry entries ih =>
    rw [List.filter_cons, List.lookup_cons]
    by_cases hentry : entry.1 = path
    · have hmiss : (p == entry.1) = false := by simpa [hentry] using hp
      rw [if_neg (by simpa using hentry), ih, hmiss]
    · rw [if_pos (by simpa using hentry), List.lookup_cons, ih]

/-- Storing a file changes the content at its path alone. -/
theorem file?_store (tree : FileTree) (path : Path) (content : String) (p : Path) :
    (tree.store path content).file? p = if p = path then some content else tree.file? p := by
  unfold file? store
  rw [List.lookup_cons]
  by_cases hp : p = path
  · simp [hp]
  · have hmiss : (p == path) = false := by simpa using hp
    rw [hmiss, if_neg hp]
    exact lookup_filter_ne hp

/-- Storing a file makes folders of what it lies in. -/
theorem isFolder_store_iff :
    (tree.store path content).isFolder p = true ↔
      tree.isFolder p = true ∨ p <+: path ∧ p ≠ path := by
  rw [isFolder_iff, isFolder_iff]
  have hfiles : (∃ file ∈ (tree.store path content).files, p <+: file.1 ∧ p ≠ file.1) ↔
      (∃ file ∈ tree.files, p <+: file.1 ∧ p ≠ file.1) ∨ p <+: path ∧ p ≠ path := by
    constructor
    · rintro ⟨file, hmem, hfile⟩
      rcases List.mem_cons.1 hmem with rfl | hmem
      · exact .inr hfile
      · exact .inl ⟨file, (List.mem_filter.1 hmem).1, hfile⟩
    · rintro (⟨file, hmem, hfile⟩ | hpath)
      · by_cases hsame : file.1 = path
        · exact ⟨(path, content), List.mem_cons_self, hsame ▸ hfile⟩
        · refine ⟨file, List.mem_cons_of_mem _ (List.mem_filter.2 ⟨hmem, ?_⟩), hfile⟩
          exact decide_eq_true hsame
      · exact ⟨(path, content), List.mem_cons_self, hpath⟩
  rw [hfiles, or_assoc, or_assoc]
  rfl

/-- A text leads to a path if it can be one, and every folder on its way is there. -/
theorem locate_eq_ok_iff :
    tree.locate text = .ok path ↔
      text ≠ "" ∧ Path.admit text = .ok () ∧ tree.Leads (Path.names text).1 (Path.names text).2 ∧
        path = Path.ofText text := by
  unfold locate
  by_cases hempty : text = ""
  · simp [hempty]
  · rw [if_neg hempty, bind_eq_ok_iff]
    simp only [follow_eq_ok_iff]
    constructor
    · rintro ⟨_, hadmit, hleads, heq⟩
      exact ⟨hempty, hadmit, hleads, heq⟩
    · rintro ⟨-, hadmit, hleads, heq⟩
      exact ⟨(), hadmit, hleads, heq⟩

/-- A file is read where the text of its path leads. -/
theorem read_eq_ok_iff :
    tree.read text = .ok content ↔
      text ≠ "" ∧ Path.admit text = .ok () ∧ tree.Leads (Path.names text).1 (Path.names text).2 ∧
        tree.file? (Path.ofText text) = some content := by
  unfold read
  simp only [bind_eq_ok_iff, locate_eq_ok_iff]
  constructor
  · rintro ⟨path, ⟨hne, hadmit, hleads, rfl⟩, hfound⟩
    refine ⟨hne, hadmit, hleads, ?_⟩
    split at hfound
    · rename_i found hfile
      cases hfound
      exact hfile
    · cases hfound
  · rintro ⟨hne, hadmit, hleads, hfile⟩
    refine ⟨_, ⟨hne, hadmit, hleads, rfl⟩, ?_⟩
    rw [hfile]

/-- A file is written where the text of its path leads, unless a folder is there. -/
theorem write_eq_ok_iff :
    tree.write text content = .ok tree' ↔
      text.toList.getLast? ≠ some '/' ∧ text ≠ "" ∧ Path.admit text = .ok () ∧
        tree.Leads (Path.names text).1 (Path.names text).2 ∧
        tree.isFolder (Path.ofText text) = false ∧
        tree' = tree.store (Path.ofText text) content := by
  unfold write
  rw [bind_eq_ok_iff]
  by_cases hslash : text.toList.getLast? = some '/'
  · simp [hslash]
  · simp only [if_neg hslash, bind_eq_ok_iff, locate_eq_ok_iff]
    constructor
    · rintro ⟨_, hadmit, path, ⟨hne, -, hleads, rfl⟩, hwritten⟩
      split at hwritten
      · cases hwritten
      · rename_i hfolder
        cases hwritten
        exact ⟨hslash, hne, hadmit, hleads, by simpa using hfolder, rfl⟩
    · rintro ⟨-, hne, hadmit, hleads, hfolder, rfl⟩
      refine ⟨(), hadmit, _, ⟨hne, hadmit, hleads, rfl⟩, ?_⟩
      rw [if_neg (by simp [hfolder])]

/-- Whether a tree has the folders of another one, with the same files in their places. -/
structure Keeps (files tree : FileTree) : Prop where
  folders : ∀ p, tree.isFolder p = files.isFolder p
  contents : ∀ p, files.isFolder p = true → tree.file? p = files.file? p

/-- Nothing is lost where nothing changes. -/
theorem Keeps.refl (files : FileTree) : files.Keeps files :=
  ⟨fun _ => rfl, fun _ _ => rfl⟩

/-- Only files and folders matter. -/
theorem Keeps.of_files {made : FileTree} (h : files.Keeps tree) (hfiles : made.files = tree.files)
    (hfolders : ∀ p, made.isFolder p = tree.isFolder p) : files.Keeps made := by
  refine ⟨fun p => (hfolders p).trans (h.folders p), fun p hp => ?_⟩
  rw [file?, hfiles]
  exact h.contents p hp

/-- A file is stored in a folder that is there, and not in the place of a folder. -/
theorem Keeps.store {name : String} (h : files.Keeps tree) (hfolder : files.isFolder path = true)
    (hfree : files.isFolder (path ++ [name]) = false) (content : String) :
    files.Keeps (tree.store (path ++ [name]) content) := by
  constructor
  · intro p
    rw [Bool.eq_iff_iff, isFolder_store_iff, h.folders p]
    refine ⟨?_, .inl⟩
    rintro (hp | ⟨habove, hne⟩)
    · exact hp
    · rcases List.prefix_concat_iff.1 habove with rfl | hfront
      · exact absurd rfl hne
      · exact isFolder_of_front hfolder hfront
  · intro p hp
    have hne : p ≠ path ++ [name] := by
      rintro rfl
      rw [hp] at hfree
      cases hfree
    rw [file?_store, if_neg hne, h.contents p hp]

/-- Makes the folder that the text of a path lies in, if it names one. -/
def prepare (tree : FileTree) (text : String) : Except FileFailure FileTree :=
  if parentText text = "" then .ok tree else tree.makeFolder (parentText text)

/-- Saving is preparing the folder of a path and writing the file. -/
theorem save_eq_ok_iff :
    Command.save tree text content = .ok tree' ↔
      ∃ made, tree.prepare text = .ok made ∧ made.write text content = .ok tree' := by
  unfold Command.save prepare
  by_cases hparent : parentText text = ""
  · simp only [hparent, if_true, bind_eq_ok_iff, mapError_eq_ok_iff, Except.ok.injEq]
  · simp only [hparent, if_false, bind_eq_ok_iff, mapError_eq_ok_iff]

/-- Whether every content can be written at the text of a path into each tree that keeps what is in
the way, and becomes the content there. -/
def Stores (files : FileTree) (text : String) : Prop :=
  ∀ tree content, files.Keeps tree → ∃ tree', Command.save tree text content = .ok tree' ∧
    files.Keeps tree' ∧
    ∀ p, tree'.file? p = if p = Path.ofText text then some content else tree.file? p

section Beside

variable {first name sibling : String} {others : List String} {saved : FileTree}
  (hslash : ∀ part ∈ first :: (others ++ [name]), '/' ∉ part.toList) (hidle : ¬ Path.IsIdle name)
  (hleads : files.Leads (Path.startOf first) (Path.countedFrom first (others ++ [sibling])))

include hslash hidle hleads

/-- The folder of a file that is beside another one is there already, so making it changes nothing,
here and in every tree that keeps what is in the way. -/
theorem exists_prepare {made : FileTree} (hkeeps : files.Keeps tree)
    (hmade : files.prepare ("/".intercalate (first :: (others ++ [name]))) = .ok made) :
    ∃ tree', tree.prepare ("/".intercalate (first :: (others ++ [name]))) = .ok tree' ∧
      tree'.files = tree.files ∧ ∀ p, tree'.isFolder p = tree.isFolder p := by
  unfold prepare at hmade ⊢
  split at hmade
  · rename_i hparent
    rw [if_pos hparent]
    exact ⟨tree, rfl, rfl, fun _ => rfl⟩
  · rename_i hparent
    rw [if_neg hparent]
    rw [Path.countedFrom_append] at hleads
    obtain ⟨kept, ⟨idle, rfl⟩, htext⟩ := Path.exists_parentText hslash hidle
    rw [htext] at hmade hparent ⊢
    have hkept : first = "" → kept ≠ [] := by
      rintro rfl rfl
      exact hparent rfl
    have hparts : ∀ part ∈ first :: kept, '/' ∉ part.toList := by
      intro part hpart
      refine hslash part ?_
      rcases List.mem_cons.1 hpart with rfl | hpart
      · exact List.mem_cons_self
      · simp [hpart]
    have hnames := Path.names_joined hkept hparts
    have hpasses := hleads.passes.1
    rw [Path.countedFrom_append] at hpasses
    rw [makeFolder, bind_eq_ok_iff] at hmade
    obtain ⟨_, hadmit, hmade⟩ := hmade
    rw [hnames] at hmade
    have hclears := (clears_of_makeAlong hmade).1.congr hpasses.left hkeeps.contents
    obtain ⟨tree', hmake, hsame⟩ :=
      makeAlong_of_passes hclears (hpasses.left.congr hkeeps.folders) false
    refine ⟨tree', ?_, hsame⟩
    rw [makeFolder, bind_eq_ok_iff]
    refine ⟨(), hadmit, ?_⟩
    rw [hnames]
    exact hmake

/-- The name of the folder above is no name for a file, so a file beside another one is in the same
folder. -/
theorem ofText_beside
    (hfree : files.isFolder (Path.ofText ("/".intercalate (first :: (others ++ [name])))) = false) :
    ∃ folder, files.isFolder folder = true ∧
      folder = (Path.countedFrom first others).foldl Path.push (Path.startOf first) ∧
      Path.ofText ("/".intercalate (first :: (others ++ [name]))) = folder ++ [name] := by
  rw [Path.countedFrom_append] at hleads
  have hfolder := hleads.passes.2
  have hnormal := (Path.isNormal_startOf first).foldl (Path.countedFrom first others)
  refine ⟨_, hfolder, rfl, ?_⟩
  rw [Path.ofText, Path.names_joined (by simp) hslash, Path.countedFrom_append] at hfree ⊢
  dsimp only at hfree ⊢
  rw [List.foldl_append, List.foldl_cons, List.foldl_nil] at hfree ⊢
  refine Path.push_of_plain hidle ?_
  rintro rfl
  rw [isFolder_push_parent hfolder hnormal] at hfree
  cases hfree

/-- A file that can be written beside another one can be written into every tree that keeps what is
in the way. -/
theorem stores_beside {content₀ : String}
    (hsaved : Command.save files ("/".intercalate (first :: (others ++ [name]))) content₀ =
      .ok saved) :
    files.Stores ("/".intercalate (first :: (others ++ [name]))) ∧
      Path.ofText ("/".intercalate (first :: (others ++ [name]))) =
        (Path.countedFrom first others).foldl Path.push (Path.startOf first) ++ [name] := by
  obtain ⟨made, hmade, hwritten⟩ := save_eq_ok_iff.1 hsaved
  have hsame : ∀ p, made.isFolder p = files.isFolder p := by
    obtain ⟨_, hmake, -, hfolders⟩ := exists_prepare hslash hidle hleads (.refl files) hmade
    cases hmade.symm.trans hmake
    exact hfolders
  obtain ⟨hends, hne, hadmit, hway, hfree, -⟩ := write_eq_ok_iff.1 hwritten
  rw [hsame] at hfree
  obtain ⟨folder, hfolder, rfl, hpath⟩ := ofText_beside hslash hidle hleads hfree
  refine ⟨?_, hpath⟩
  intro tree content hkeeps
  obtain ⟨tree', hmake, hfiles, hfolders⟩ := exists_prepare hslash hidle hleads hkeeps hmade
  have hkeeps' := hkeeps.of_files hfiles hfolders
  refine ⟨_, save_eq_ok_iff.2 ⟨tree', hmake, write_eq_ok_iff.2
    ⟨hends, hne, hadmit, hway.congr fun p => ?_, ?_, rfl⟩⟩, ?_, fun p => ?_⟩
  · rw [hkeeps'.folders, hsame]
  · rw [hkeeps'.folders, hfree]
  · rw [hpath] at hfree ⊢
    exact hkeeps'.store hfolder hfree content
  · rw [file?_store, file?, hfiles]
    rfl

end Beside

section Below

variable {directory name : String} {front : Path} (hdirectory : directory ≠ "")
  (hnames : ∀ part ∈ front ++ [name], Path.IsName part)

include hdirectory hnames

/-- A file below a directory is read at the path behind the one of the directory. -/
theorem read_below (hread : files.read (textBelow directory (front ++ [name])) = .ok content) :
    files.file? (Path.ofText directory ++ (front ++ [name])) = some content := by
  obtain ⟨first, inner, hslash, hofText, hbelow⟩ := exists_textBelow hdirectory
  have hparts : ∀ part ∈ first :: (inner ++ (front ++ [name])), '/' ∉ part.toList := by
    rw [← List.cons_append, List.forall_mem_append]
    exact ⟨hslash, fun part hpart => (hnames part hpart).slash⟩
  obtain ⟨-, -, -, hfile⟩ := read_eq_ok_iff.1 hread
  rw [hbelow _ (by simp), Path.ofText, Path.names_joined (by simp) hparts] at hfile
  dsimp only at hfile
  rwa [Path.countedFrom_append, List.foldl_append, ← hofText,
    Path.foldl_push_of_isName hnames] at hfile

/-- A file that can be written beside one that can be read, below a directory, can be written into
every tree that keeps what is in the way. It needs no new folders. -/
theorem stores_below {last written : String} {saved : FileTree}
    (hread : files.read (textBelow directory (front ++ [name])) = .ok content)
    (hslash : '/' ∉ last.toList) (hidle : ¬ Path.IsIdle last)
    (hsaved : Command.save files (textBelow directory (front ++ [last])) written = .ok saved) :
    files.Stores (textBelow directory (front ++ [last])) ∧
      Path.ofText (textBelow directory (front ++ [last])) =
        Path.ofText directory ++ (front ++ [last]) := by
  obtain ⟨first, inner, hinner, hofText, hbelow⟩ := exists_textBelow hdirectory
  rw [List.forall_mem_append, List.forall_mem_singleton] at hnames
  have htext (last : String) : textBelow directory (front ++ [last]) =
      "/".intercalate (first :: (inner ++ front ++ [last])) := by
    rw [hbelow _ (by simp), List.append_assoc]
  have hparts (last : String) (h : '/' ∉ last.toList) :
      ∀ part ∈ first :: (inner ++ front ++ [last]), '/' ∉ part.toList := by
    rw [← List.cons_append, ← List.cons_append, List.forall_mem_append, List.forall_mem_append,
      List.forall_mem_singleton]
    exact ⟨⟨hinner, fun part hpart => (hnames.1 part hpart).slash⟩, h⟩
  obtain ⟨-, -, hleads, -⟩ := read_eq_ok_iff.1 hread
  rw [htext, Path.names_joined (by simp) (hparts name hnames.2.slash)] at hleads
  rw [htext] at hsaved ⊢
  obtain ⟨hstores, hpath⟩ := stores_beside (hparts last hslash) hidle hleads hsaved
  refine ⟨hstores, ?_⟩
  rw [hpath, Path.countedFrom_append, List.foldl_append, ← hofText,
    Path.foldl_push_of_isName hnames.1, List.append_assoc]

end Below

/-- What is at a path when outputs have been written one after another: what one of them puts there,
or, if none of them is for it, what was there before. -/
theorem saveAll_of_stores (reports : String) {outputs : List (String × String)}
    (hstores : ∀ output ∈ outputs, files.Stores output.1) (hkeeps : files.Keeps tree) :
    ∃ tree', Command.saveAll reports tree outputs =
        { status := 0, errors := reports, files := tree' } ∧
      ∀ p, (∃ output ∈ outputs, Path.ofText output.1 = p ∧ tree'.file? p = some output.2) ∨
        (∀ output ∈ outputs, Path.ofText output.1 ≠ p) ∧ tree'.file? p = tree.file? p := by
  induction outputs generalizing tree with
  | nil => exact ⟨tree, rfl, fun p => .inr ⟨by simp, rfl⟩⟩
  | cons output outputs ih =>
    obtain ⟨text, content⟩ := output
    rw [List.forall_mem_cons] at hstores
    obtain ⟨stored, hsave, hkept, hstored⟩ := hstores.1 tree content hkeeps
    obtain ⟨tree', hrest, hfiles⟩ := ih hstores.2 hkept
    refine ⟨tree', ?_, fun p => ?_⟩
    · rw [Command.saveAll, hsave]
      exact hrest
    · rcases hfiles p with ⟨output, hmem, houtput⟩ | ⟨hmiss, hfile⟩
      · exact .inl ⟨output, List.mem_cons_of_mem _ hmem, houtput⟩
      · rw [hstored] at hfile
        by_cases hp : p = Path.ofText text
        · rw [if_pos hp] at hfile
          exact .inl ⟨(text, content), List.mem_cons_self, hp.symm, hfile⟩
        · rw [if_neg hp] at hfile
          exact .inr ⟨List.forall_mem_cons.2 ⟨fun heq => hp heq.symm, hmiss⟩, hfile⟩

end FileTree

end Sprout
