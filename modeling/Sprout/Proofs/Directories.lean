import Sprout.Proofs.Files.Extensions
import Sprout.Proofs.Files.Saving

namespace Sprout

namespace FileTree

/-- Whether a path that counts from a directory is the path of a source with a content. -/
def HasSource (files : FileTree) (directory : String) (path : Path) (content : String) : Prop :=
  path.extension? = some "spr" ∧ files.file? (Path.ofText directory ++ path) = some content

/-- Whether reading the sources below a directory cannot fail. -/
structure Readable (files : FileTree) (directory : String) : Prop where
  /-- What is below the directory has the names of files and folders. -/
  names : ∀ path content, files.file? (Path.ofText directory ++ path) = some content →
    ∀ name ∈ path, Path.IsName name
  reads : ∀ path content, files.HasSource directory path content →
    ∃ found, files.read (textBelow directory path) = .ok found

end FileTree

namespace Command

variable {c : Command} {files : FileTree} {directory text : String} {path path' : Path}
  {content content' : String}

/-- The path that the result for a source below a directory is written to. -/
def target (c : Command) (directory : String) (path : Path) : Path :=
  (Path.ofText directory ++ path).withExtension c.emit.extension

/-- Whether writing beside the sources below a directory cannot fail. -/
def CanWrite (c : Command) (files : FileTree) (directory : String) : Prop :=
  ∀ path content, files.HasSource directory path content →
    ∃ written saved,
      save files (withExtension (textBelow directory path) c.emit.extension) written = .ok saved

/-- What is below a folder are the files whose paths it starts. -/
theorem mem_below_iff {folder : Path} :
    path ∈ files.below folder ↔
      path ≠ [] ∧ ∃ content, files.file? (folder ++ path) = some content := by
  rw [← Option.isSome_iff_exists, FileTree.file?, List.lookup_isSome_iff, FileTree.below,
    List.mem_mergeSort, List.mem_filterMap]
  constructor
  · rintro ⟨⟨file, content⟩, hmem, hfile⟩
    obtain ⟨hinside, hrest⟩ := Option.ite_none_right_eq_some.1 hfile
    obtain rfl := Option.some.inj hrest
    simp only [Bool.and_eq_true, List.isPrefixOf_iff_prefix, decide_eq_true_eq] at hinside
    obtain ⟨⟨rest, rfl⟩, hne⟩ := hinside
    rw [List.drop_left]
    exact ⟨by simpa using hne, _, hmem, by simp⟩
  · rintro ⟨hne, ⟨file, content⟩, hmem, hfile⟩
    obtain rfl : folder ++ path = file := by simpa using hfile
    exact ⟨_, hmem, by simpa using hne⟩

/-- The texts that a run on a directory reads are the ones of its sources. -/
theorem mem_sourcesUnder_iff :
    text ∈ sourcesUnder files directory ↔
      ∃ path content, files.HasSource directory path content ∧ text = textBelow directory path := by
  rw [sourcesUnder, List.mem_map]
  constructor
  · rintro ⟨path, hmem, rfl⟩
    obtain ⟨hbelow, hsource⟩ := List.mem_filter.1 hmem
    obtain ⟨-, content, hcontent⟩ := mem_below_iff.1 hbelow
    exact ⟨path, content, ⟨of_decide_eq_true hsource, hcontent⟩, rfl⟩
  · rintro ⟨path, content, ⟨hextension, hcontent⟩, rfl⟩
    have hne : path ≠ [] := by
      rintro rfl
      cases hextension
    refine ⟨path, List.mem_filter.2 ⟨mem_below_iff.2 ⟨hne, content, hcontent⟩, ?_⟩, rfl⟩
    exact decide_eq_true hextension

section Beside

variable (hreadable : files.Readable directory) (hdirectory : directory ≠ "")

include hreadable hdirectory

/-- A source is read where it is. -/
theorem read_source (hsource : files.HasSource directory path content) :
    files.read (textBelow directory path) = .ok content := by
  have hnames := hreadable.names path content hsource.2
  obtain ⟨found, hread⟩ := hreadable.reads path content hsource
  obtain ⟨front, name, stem, rfl, -⟩ := Path.exists_of_extension? hsource.1
  have hfile := FileTree.read_below hdirectory hnames hread
  rwa [Option.some.inj (hfile.symm.trans hsource.2)] at hread

/-- The result for a source can be written next to it. -/
theorem stores_source (hwrite : c.CanWrite files directory)
    (hsource : files.HasSource directory path content) :
    files.Stores (withExtension (textBelow directory path) c.emit.extension) ∧
      Path.ofText (withExtension (textBelow directory path) c.emit.extension) =
        c.target directory path := by
  have hextension := (Emit.extension_isExtension c.emit).1
  have hnames := hreadable.names path content hsource.2
  have hread := read_source hreadable hdirectory hsource
  obtain ⟨written, saved, hsaved⟩ := hwrite path content hsource
  obtain ⟨front, name, stem, rfl, hname⟩ := Path.exists_of_extension? hsource.1
  have hslash := (hnames name (by simp)).slash
  rw [withExtension_textBelow hdirectory hslash] at hsaved ⊢
  obtain ⟨hstores, hpath⟩ := FileTree.stores_below hdirectory hnames hread
    (slash_not_mem_nameWithExtension hextension hname hslash)
    (not_isIdle_nameWithExtension hextension hname) hsaved
  refine ⟨hstores, ?_⟩
  rw [hpath, target, ← List.append_assoc, ← List.append_assoc, Path.withExtension_concat]

end Beside

/-- What the source at the text of a path comes to. -/
def resultAt (c : Command) (files : FileTree) (text : String) : Option String :=
  (files.read text).toOption.bind fun content => (c.process ⟨text, content⟩).1

/-- What is written for the source at the text of a path, with the text of the path to write. -/
def outputAt (c : Command) (files : FileTree) (text : String) : Option (String × String) :=
  (c.resultAt files text).map (withExtension text c.emit.extension, ·)

/-- The reports on the source at the text of a path, which has none if it cannot be read. -/
def reportAt (c : Command) (files : FileTree) (text : String) : String :=
  ((files.read text).toOption.map fun content => (c.process ⟨text, content⟩).2).getD ""

/-- Processing reads every source and leaves out the ones that fail. The reports on all of them
stand one behind the other. -/
theorem processAll_eq {texts : List String}
    (hreads : ∀ text ∈ texts, ∃ content, files.read text = .ok content) :
    c.processAll files texts =
      .ok (texts.filterMap (c.outputAt files), texts.countP (c.resultAt files · |>.isNone),
        String.join (texts.map (c.reportAt files))) := by
  induction texts with
  | nil => rfl
  | cons text texts ih =>
    rw [List.forall_mem_cons] at hreads
    obtain ⟨content, hread⟩ := hreads.1
    have hresult : c.resultAt files text = (c.process ⟨text, content⟩).1 := by
      rw [resultAt, hread]
      rfl
    have hreports : c.reportAt files text = (c.process ⟨text, content⟩).2 := by
      rw [reportAt, hread]
      rfl
    rw [List.filterMap_cons, List.countP_cons, List.map_cons, String.join_cons, outputAt, hresult,
      hreports, processAll, hread, ih hreads.2]
    dsimp only
    cases c.process ⟨text, content⟩ with
    | mk result reports => cases result <;> simp

/-- A source that cannot be read ends the run with its own message. What has been reported on the
sources before it stays reported, and those behind it are not looked at. -/
theorem processAll_of_unreadable {before after : List String} {failure : FileFailure}
    (hreads : ∀ text ∈ before, ∃ content, files.read text = .ok content)
    (hfails : files.read text = .error failure) :
    c.processAll files (before ++ text :: after) =
      .error (String.join (before.map (c.reportAt files)), "failed to read input file " ++ text,
        failure) := by
  induction before with
  | nil => simp [processAll, hfails, String.join]
  | cons first before ih =>
    rw [List.forall_mem_cons] at hreads
    obtain ⟨content, hread⟩ := hreads.1
    have hreports : c.reportAt files first = (c.process ⟨first, content⟩).2 := by
      rw [reportAt, hread]
      rfl
    rw [List.cons_append, processAll, hread, List.map_cons, String.join_cons, hreports]
    simp [ih hreads.2]

/-- A source that is processed has a result exactly where its stage succeeds. -/
theorem process_eq_some_iff {source : Source} {result : String} :
    (c.process source).1 = some result ↔ ∃ reports, c.stage source = .ok (result, reports) := by
  unfold process
  cases c.stage source with
  | error error => simp
  | ok made => simp [Prod.ext_iff]

section Running

variable (hreadable : files.Readable directory) (hdirectory : directory ≠ "")

include hreadable hdirectory

/-- The source below a directory at a path comes to what its stage makes of its content. -/
theorem resultAt_eq_some_iff {result : String} (hsource : files.HasSource directory path content) :
    c.resultAt files (textBelow directory path) = some result ↔
      ∃ reports, c.stage ⟨textBelow directory path, content⟩ = .ok (result, reports) := by
  rw [resultAt, read_source hreadable hdirectory hsource, ← process_eq_some_iff]
  rfl

/-- What a run on a directory writes is made from its sources, each by its stage. -/
theorem mem_outputs_iff {place made : String} :
    (place, made) ∈ (sourcesUnder files directory).filterMap (c.outputAt files) ↔
      ∃ path content reports, files.HasSource directory path content ∧
        place = withExtension (textBelow directory path) c.emit.extension ∧
        c.stage ⟨textBelow directory path, content⟩ = .ok (made, reports) := by
  simp only [List.mem_filterMap, mem_sourcesUnder_iff, outputAt, Option.map_eq_some_iff,
    Prod.mk.injEq]
  constructor
  · rintro ⟨_, ⟨path, content, hsource, rfl⟩, result, hresult, rfl, rfl⟩
    obtain ⟨reports, hstage⟩ := (resultAt_eq_some_iff hreadable hdirectory hsource).1 hresult
    exact ⟨path, content, reports, hsource, rfl, hstage⟩
  · rintro ⟨path, content, reports, hsource, rfl, hstage⟩
    exact ⟨_, ⟨path, content, hsource, rfl⟩, made,
      (resultAt_eq_some_iff hreadable hdirectory hsource).2 ⟨reports, hstage⟩, rfl, rfl⟩

/-- What a run on a directory writes can be written. -/
theorem stores_outputs (hwrite : c.CanWrite files directory) :
    ∀ output ∈ (sourcesUnder files directory).filterMap (c.outputAt files),
      files.Stores output.1 := by
  rintro ⟨place, made⟩ hmem
  obtain ⟨path, content, reports, hsource, rfl, -⟩ := (mem_outputs_iff hreadable hdirectory).1 hmem
  exact (stores_source hreadable hdirectory hwrite hsource).1

/-- The sources of a directory are processed one by one: the results, the number of failures and the
reports are those of each, in order. -/
theorem processAll_sources : c.processAll files (sourcesUnder files directory) =
    .ok ((sourcesUnder files directory).filterMap (c.outputAt files),
      (sourcesUnder files directory).countP (c.resultAt files · |>.isNone),
      String.join ((sourcesUnder files directory).map (c.reportAt files))) := by
  refine processAll_eq fun text htext => ?_
  obtain ⟨path, content, hsource, rfl⟩ := mem_sourcesUnder_iff.1 htext
  exact ⟨content, read_source hreadable hdirectory hsource⟩

end Running

/-- Different sources have different places for their results. -/
theorem target_inj (hsource : files.HasSource directory path content)
    (hsource' : files.HasSource directory path' content')
    (heq : c.target directory path = c.target directory path') : path = path' := by
  have hextension := (Emit.extension_isExtension c.emit).1
  exact List.append_cancel_left (Path.withExtension_inj hextension
    (Path.extension?_append _ hsource.1) (Path.extension?_append _ hsource'.1) heq)

/-- No result is written to the place of a source. -/
theorem extension?_target_ne (hsource : files.HasSource directory path content) :
    (c.target directory path).extension? ≠ some "spr" := by
  obtain ⟨hextension, hne⟩ := Emit.extension_isExtension c.emit
  exact Path.extension?_withExtension_ne hextension hne (Path.extension?_append _ hsource.1)

section Outcome

variable (hinput : c.input = some directory) (houtput : c.output = none)
  (hfolder : files.hasFolder directory = true) (hreadable : files.Readable directory)

include hfolder in
/-- Only a path with a name leads to a directory. -/
theorem directory_ne_empty : directory ≠ "" := by
  rintro rfl
  cases hfolder

include hinput houtput hfolder hreadable

/-- The run of a directory is put together from what each of its sources comes to: every result is
saved, and a failure of one source does not stop the others. -/
theorem run_eq (standardInput : String) :
    c.run files standardInput =
      let failures := (sourcesUnder files directory).countP (c.resultAt files · |>.isNone)
      let reports := String.join ((sourcesUnder files directory).map (c.reportAt files))
      if failures = 0 then
        saveAll reports files ((sourcesUnder files directory).filterMap (c.outputAt files))
      else
        failed files reports
          (toString failures ++ " file(s) failed to transpile; nothing was written") none := by
  rw [run, hinput]
  dsimp only
  rw [if_pos hfolder, runDirectory, houtput,
    processAll_sources hreadable (directory_ne_empty hfolder)]
  rfl

/-- A run on a directory with a source that fails changes nothing. -/
theorem run_of_failure (standardInput : String) (hfailure : ∃ path content error,
      files.HasSource directory path content ∧
        c.stage ⟨textBelow directory path, content⟩ = .error error) :
    (c.run files standardInput).status = 1 ∧ (c.run files standardInput).files = files := by
  have hdirectory := directory_ne_empty hfolder
  obtain ⟨path, content, error, hsource, hstage⟩ := hfailure
  have houtcome := run_eq hinput houtput hfolder hreadable standardInput
  have hnone : c.resultAt files (textBelow directory path) = none := by
    refine Option.eq_none_iff_forall_ne_some.2 fun result hresult => ?_
    obtain ⟨reports, hmade⟩ := (resultAt_eq_some_iff hreadable hdirectory hsource).1 hresult
    rw [hstage] at hmade
    cases hmade
  have hcount : ¬ (sourcesUnder files directory).countP (c.resultAt files · |>.isNone) = 0 := by
    rw [List.countP_eq_zero]
    intro hall
    exact hall _ (mem_sourcesUnder_iff.2 ⟨path, content, hsource, rfl⟩) (by rw [hnone]; rfl)
  dsimp only at houtcome
  rw [houtcome, if_neg hcount]
  exact ⟨rfl, rfl⟩

/-- A run on a directory whose sources are all processed writes the results and nothing else. -/
theorem run_of_success (standardInput : String)
    (hwrite : c.CanWrite files directory)
    (hsuccess : ∀ path content, files.HasSource directory path content →
      ∃ made, c.stage ⟨textBelow directory path, content⟩ = .ok made) :
    (c.run files standardInput).status = 0 ∧
      (∀ path content result reports, files.HasSource directory path content →
        c.stage ⟨textBelow directory path, content⟩ = .ok (result, reports) →
        (c.run files standardInput).files.file? (c.target directory path) = some result) ∧
      ∀ p, (∀ path content, files.HasSource directory path content → c.target directory path ≠ p) →
        (c.run files standardInput).files.file? p = files.file? p := by
  have hdirectory := directory_ne_empty hfolder
  have houtcome := run_eq hinput houtput hfolder hreadable standardInput
  have hcount : (sourcesUnder files directory).countP (c.resultAt files · |>.isNone) = 0 := by
    rw [List.countP_eq_zero]
    intro text htext
    obtain ⟨path, content, hsource, rfl⟩ := mem_sourcesUnder_iff.1 htext
    obtain ⟨⟨result, reports⟩, hstage⟩ := hsuccess path content hsource
    rw [(resultAt_eq_some_iff hreadable hdirectory hsource).2 ⟨reports, hstage⟩]
    simp
  obtain ⟨tree, hsaved, hfiles⟩ := FileTree.saveAll_of_stores
    (String.join ((sourcesUnder files directory).map (c.reportAt files)))
    (stores_outputs hreadable hdirectory hwrite) (.refl files)
  dsimp only at houtcome
  rw [houtcome, if_pos hcount, hsaved]
  refine ⟨rfl, fun path content result reports hsource hstage => ?_, fun p hp => ?_⟩
  · have hmem := (mem_outputs_iff hreadable hdirectory).2 ⟨path, content, reports, hsource, rfl, hstage⟩
    have hplace := (stores_source hreadable hdirectory hwrite hsource).2
    rcases hfiles (c.target directory path) with ⟨⟨place, made⟩, hmem', hplace', hfile⟩ | ⟨hmiss, -⟩
    · -- what is there is made from the same source
      obtain ⟨path', content', reports', hsource', rfl, hstage'⟩ :=
        (mem_outputs_iff hreadable hdirectory).1 hmem'
      rw [(stores_source hreadable hdirectory hwrite hsource').2] at hplace'
      obtain rfl := target_inj hsource' hsource hplace'
      obtain rfl : content' = content := Option.some.inj (hsource'.2.symm.trans hsource.2)
      rw [hstage, Except.ok.injEq, Prod.mk.injEq] at hstage'
      rw [hfile, hstage'.1]
    · exact (hmiss _ hmem hplace).elim
  · rcases hfiles p with ⟨⟨place, made⟩, hmem, hplace, -⟩ | ⟨-, hfile⟩
    · obtain ⟨path, content, reports, hsource, rfl, -⟩ := (mem_outputs_iff hreadable hdirectory).1 hmem
      rw [(stores_source hreadable hdirectory hwrite hsource).2] at hplace
      exact absurd hplace (hp path content hsource)
    · exact hfile

end Outcome

/-- A run on a directory is all or nothing. If every source below it is processed, each result is
written beside its source, with the extension for what is written, and nothing else changes; no two
sources have one place for their results, and no source is changed. If a source fails, everything
stays as it is. -/
theorem run_directory (hinput : c.input = some directory) (houtput : c.output = none)
    (hfolder : files.hasFolder directory = true) (hreadable : files.Readable directory)
    (standardInput : String) :
    let outcome := c.run files standardInput
    (∀ path path' content content', files.HasSource directory path content →
      files.HasSource directory path' content' →
      c.target directory path = c.target directory path' → path = path') ∧
    (c.CanWrite files directory →
      (∀ path content, files.HasSource directory path content →
        ∃ made, c.stage ⟨textBelow directory path, content⟩ = .ok made) →
      outcome.status = 0 ∧
      (∀ path content result reports, files.HasSource directory path content →
        c.stage ⟨textBelow directory path, content⟩ = .ok (result, reports) →
        outcome.files.file? (c.target directory path) = some result) ∧
      (∀ p, (∀ path content, files.HasSource directory path content →
        c.target directory path ≠ p) → outcome.files.file? p = files.file? p) ∧
      ∀ p, p.extension? = some "spr" → outcome.files.file? p = files.file? p) ∧
    ((∃ path content error, files.HasSource directory path content ∧
        c.stage ⟨textBelow directory path, content⟩ = .error error) →
      outcome.status = 1 ∧ outcome.files = files) := by
  intro outcome
  refine ⟨fun _ _ _ _ => target_inj, fun hwrite hsuccess => ?_,
    run_of_failure hinput houtput hfolder hreadable standardInput⟩
  obtain ⟨hstatus, hresults, hothers⟩ :=
    run_of_success hinput houtput hfolder hreadable standardInput hwrite hsuccess
  refine ⟨hstatus, hresults, hothers, fun p hp => hothers p fun path content hsource htarget => ?_⟩
  exact extension?_target_ne hsource (htarget ▸ hp)

end Command

/-- A folder with a program, a hidden one, one in a folder of its own with a point in its stem, an
older result, and a file whose name has no extension. -/
private def garden (hidden : String) : FileTree where
  files := [(["garden", "rose.spr"], "main\x7b\x7d"), (["garden", ".shade.spr"], hidden),
    (["garden", "bed", "v1.2.spr"], "main\x7bvar a=1;\x7d"), (["garden", "rose.cpp"], "old"),
    (["garden", ".spr"], "?")]

private def gardener : Command where
  input := some "garden"

/-- What is found below the directory is one of the files put there. -/
private theorem garden_entry {hidden content : String} {path : Path}
    (hfound : (garden hidden).file? (Path.ofText "garden" ++ path) = some content) :
    ∃ entry ∈ (garden hidden).files, entry.1.drop 1 = path ∧ entry.2 = content := by
  have hfolder : Path.ofText "garden" = ["garden"] := by decide +kernel
  rw [hfolder] at hfound
  obtain ⟨before, after, hfiles, -⟩ := List.lookup_eq_some_iff.1 hfound
  refine ⟨(["garden"] ++ path, content), ?_, rfl, rfl⟩
  rw [hfiles]
  exact List.mem_append_right _ List.mem_cons_self

/-- All sources of the directory can be read, whatever the hidden one holds. -/
private theorem garden_readable : ∀ hidden ∈ ["main\x7b\x7d", "main\x7b"],
    (garden hidden).Readable "garden" := by
  have hnames : ∀ hidden ∈ ["main\x7b\x7d", "main\x7b"], ∀ entry ∈ (garden hidden).files,
      ∀ name ∈ entry.1.drop 1, ¬ (name = "" ∨ name = ".") ∧ name ≠ ".." ∧ '/' ∉ name.toList := by
    decide +kernel
  have hreads : ∀ hidden ∈ ["main\x7b\x7d", "main\x7b"], ∀ entry ∈ (garden hidden).files,
      ((garden hidden).read (textBelow "garden" (entry.1.drop 1))).isOk = true := by
    decide +kernel
  intro hidden hhidden
  constructor
  case names =>
    intro path content hfound name hname
    obtain ⟨entry, hmem, rfl, rfl⟩ := garden_entry hfound
    obtain ⟨hidle, hparent, hslash⟩ := hnames hidden hhidden entry hmem name hname
    exact ⟨hidle, hparent, hslash⟩
  case reads =>
    rintro path content ⟨-, hfound⟩
    obtain ⟨entry, hmem, rfl, rfl⟩ := garden_entry hfound
    exact exists_eq_ok_of_isOk (hreads hidden hhidden entry hmem)

/-- A name with two points loses only what follows the second, a nested source is saved beside
itself, and the files that are no sources are left alone. If the hidden source fails, nothing is
saved. -/
theorem garden_run :
    ((gardener.run (garden "main\x7b\x7d") "").status = 0 ∧
      (∃ code reports,
        gardener.stage ⟨"garden/bed/v1.2.spr", "main\x7bvar a=1;\x7d"⟩ = .ok (code, reports) ∧
          (gardener.run (garden "main\x7b\x7d") "").files.file? ["garden", "bed", "v1.2.cpp"] =
            some code) ∧
      (gardener.run (garden "main\x7b\x7d") "").files.file? ["garden", ".shade.spr"] =
        some "main\x7b\x7d") ∧
      (gardener.run (garden "main\x7b") "").status = 1 ∧
      (gardener.run (garden "main\x7b") "").files = garden "main\x7b" := by
  obtain ⟨-, hsuccess, -⟩ := Command.run_directory (c := gardener) rfl rfl (by decide +kernel)
    (garden_readable "main\x7b\x7d" (by simp)) ""
  obtain ⟨-, -, hfailure⟩ := Command.run_directory (c := gardener) rfl rfl (by decide +kernel)
    (garden_readable "main\x7b" (by simp)) ""
  have hsaves : ∀ entry ∈ (garden "main\x7b\x7d").files,
      (Command.save (garden "main\x7b\x7d") (withExtension (textBelow "garden" (entry.1.drop 1))
        gardener.emit.extension) "").isOk = true := by
    decide +kernel
  have hstages : ∀ entry ∈ (garden "main\x7b\x7d").files,
      Path.extension? (entry.1.drop 1) = some "spr" →
      (gardener.stage ⟨textBelow "garden" (entry.1.drop 1), entry.2⟩).isOk = true := by
    decide +kernel
  have hwrite : gardener.CanWrite (garden "main\x7b\x7d") "garden" := by
    rintro path content ⟨-, hfound⟩
    obtain ⟨entry, hmem, rfl, rfl⟩ := garden_entry hfound
    exact ⟨"", exists_eq_ok_of_isOk (hsaves entry hmem)⟩
  obtain ⟨hstatus, hwritten, -, hsources⟩ := hsuccess hwrite <| by
    rintro path content ⟨hextension, hfound⟩
    obtain ⟨entry, hmem, rfl, rfl⟩ := garden_entry hfound
    exact exists_eq_ok_of_isOk (hstages entry hmem hextension)
  refine ⟨⟨hstatus, ?_, ?_⟩, hfailure ?_⟩
  · have htext : textBelow "garden" ["bed", "v1.2.spr"] = "garden/bed/v1.2.spr" := by decide +kernel
    have htarget :
        gardener.target "garden" ["bed", "v1.2.spr"] = ["garden", "bed", "v1.2.cpp"] := by
      decide +kernel
    obtain ⟨⟨code, reports⟩, hstage⟩ := exists_eq_ok_of_isOk
      (hstages (["garden", "bed", "v1.2.spr"], "main\x7bvar a=1;\x7d") (by simp [garden])
        (by decide +kernel))
    have hresult := hwritten ["bed", "v1.2.spr"] _ code reports
      ⟨by decide +kernel, by decide +kernel⟩ hstage
    rw [htarget] at hresult
    exact ⟨code, reports, htext ▸ hstage, hresult⟩
  · rw [hsources _ (by decide +kernel)]
    decide +kernel
  · have hrefused :
        (gardener.stage ⟨textBelow "garden" [".shade.spr"], "main\x7b"⟩).isOk = false := by
      decide +kernel
    cases hstage : gardener.stage ⟨textBelow "garden" [".shade.spr"], "main\x7b"⟩ with
    | error error => exact ⟨_, _, error, ⟨by decide +kernel, by decide +kernel⟩, hstage⟩
    | ok made =>
      rw [hstage] at hrefused
      cases hrefused

end Sprout
