import Mathlib.Data.List.Forall2
import PrefixForth.Batch
import PrefixForth.Proofs.FileTree
import PrefixForth.Proofs.Schedule

/-!
# All or nothing

A batch reads all its files before it compiles any, and compiles them all before it touches its
output. So the output is made from what the files held before the call, also if it is one of them, and
a batch that fails has changed nothing. This does not depend on whether it was canceled, but only a
batch that was not canceled, or has no files, can succeed.

Each phase has its lemmas: `readAll_eq_ok_iff` for reading, `compileAllUnder_eq_ok_iff` and
`compileAllUnder_of_unique` for the group, `delivered_of_emit` and `eq_of_emit_error` for the output.

Main statement: `batch_is_all_or_nothing`.
-/

namespace PrefixForth

variable {t : FileTree} {names contents : List Bytes} {output content : Bytes} {schedule : List Nat}
  {canceled : Bool} {w w' : Workspace}

/-- The file with the given name compiles to the target text. -/
def Yields (t : FileTree) (name target : Bytes) : Prop :=
  ∃ content, t.read name = .ok content ∧ compile content = .ok target

/-- The schedule ends all units of the batch, if its files can be read. -/
def Completes (schedule : List Nat) (canceled : Bool) (names : List Bytes) (t : FileTree) : Prop :=
  ∀ contents, readAll t names = .ok contents →
    ((Group.ofSources canceled contents).run schedule).Finished

/-- The text has gone to the output: it has been printed, or it is what the named file holds now.
Nothing else has changed. -/
def Delivered (w : Workspace) (output text : Bytes) (w' : Workspace) : Prop :=
  if output = utf8 "-" then w'.printed = w.printed ++ text ∧ w'.files = w.files
  else w'.printed = w.printed ∧ w'.files.read output = .ok text ∧
    ∃ p, w.files.target output = .ok p ∧
      ∀ q, w'.files.place? q = if q = p then some (.file text) else w.files.place? q

/-! ### Reading -/

/-- All files are read exactly if each of them is. -/
theorem readAll_eq_ok_iff : readAll t names = .ok contents ↔
    List.Forall₂ (fun name content => t.read name = .ok content) names contents := by
  induction names generalizing contents with
  | nil =>
    rw [List.forall₂_nil_left_iff, readAll, Except.ok.injEq]
    exact eq_comm
  | cons name names ih =>
    rw [List.forall₂_cons_left_iff]
    rcases hread : t.read name with fault | content
    · simp [readAll, hread, bind, Except.bind]
    · rcases hrest : readAll t names with fault | rest
      · have hnone : ∀ rest, ¬ List.Forall₂ (fun name content => t.read name = .ok content) names
            rest := fun rest h => by simpa [hrest] using ih.mpr h
        simp [readAll, hread, hrest, bind, Except.bind, hnone]
      · have hunique : ∀ rest', List.Forall₂ (fun name content => t.read name = .ok content) names
            rest' ↔ rest = rest' := fun rest' => by rw [← ih, hrest, Except.ok.injEq]
        simp only [readAll, hread, hrest, bind, Except.bind, pure, Except.pure, hunique,
          Except.ok.injEq]
        constructor
        · rintro rfl
          exact ⟨content, rest, rfl, rfl, rfl⟩
        · rintro ⟨_, _, rfl, rfl, rfl⟩
          rfl

/-- There are as many contents as files. -/
theorem nil_iff_of_readAll (h : readAll t names = .ok contents) : names = [] ↔ contents = [] := by
  have hlength := (readAll_eq_ok_iff.mp h).length_eq
  rw [← List.length_eq_zero_iff, hlength, List.length_eq_zero_iff]

/-- The files compile one by one exactly if they can all be read and what they hold compiles. -/
theorem forall₂_yields_iff {targets : List Bytes} : List.Forall₂ (Yields t) names targets ↔
    ∃ contents, readAll t names = .ok contents ∧ contents.map compile = targets.map .ok := by
  simp only [readAll_eq_ok_iff]
  constructor
  · intro h
    induction h with
    | nil => exact ⟨[], .nil, rfl⟩
    | cons hyields _ ih =>
      obtain ⟨content, hread, hcompile⟩ := hyields
      obtain ⟨contents, hreads, hcompiles⟩ := ih
      exact ⟨content :: contents, .cons hread hreads, by
        rw [List.map_cons, List.map_cons, hcompile, hcompiles]⟩
  · rintro ⟨contents, hreads, hcompiles⟩
    induction hreads generalizing targets with
    | nil =>
      have hnil : targets = [] := by simpa using hcompiles
      rw [hnil]
      exact .nil
    | cons hread _ ih =>
      rcases targets with _ | ⟨target, targets⟩
      · cases hcompiles
      · rw [List.map_cons, List.map_cons, List.cons.injEq] at hcompiles
        exact .cons ⟨_, hread, hcompiles.1⟩ (ih hcompiles.2)

/-! ### The output -/

private theorem outputText_eq (targets : List Bytes) :
    outputText targets =
      targets.flatMap fun target => if target = [] then [] else target ++ [lineFeed] := by
  induction targets with
  | nil => rfl
  | cons target targets ih =>
    rw [List.flatMap_cons, ← ih]
    by_cases htarget : target = []
    · simp [outputText, htarget]
    · simp [outputText, htarget]

/-- Text that is emitted without a fault is delivered. -/
theorem delivered_of_emit {text : Bytes} (h : w.emit output text = (.ok (), w')) :
    Delivered w output text w' := by
  rw [Workspace.emit] at h
  rw [Delivered]
  split
  · rename_i hprints
    rw [if_pos hprints, Prod.mk.injEq] at h
    rw [← h.2]
    exact ⟨rfl, rfl⟩
  · rename_i hwrites
    rw [if_neg hwrites, FileTree.write] at h
    rcases htarget : w.files.target output with cause | p
    · simp [htarget] at h
    · simp only [htarget, Prod.mk.injEq, true_and] at h
      rw [← h]
      exact ⟨rfl, FileTree.read_put_of_target htarget text, p, rfl,
        FileTree.place?_put_of_target htarget text⟩

/-- Text can be emitted to standard output, and to a name that can be written to. -/
private theorem exists_emit_iff {text : Bytes} : (∃ w', w.emit output text = (.ok (), w')) ↔
    output = utf8 "-" ∨ ∃ p, w.files.target output = .ok p := by
  rw [Workspace.emit, FileTree.write]
  split
  · rename_i hprints
    exact iff_of_true ⟨_, rfl⟩ (.inl hprints)
  · rename_i hwrites
    rcases htarget : w.files.target output with cause | p
    · simp [hwrites]
    · simp

/-- A fault of the output leaves the world as it was. -/
theorem eq_of_emit_error {text : Bytes} {fault : FileFault}
    (h : w.emit output text = (.error fault, w')) : w' = w := by
  rw [Workspace.emit] at h
  split at h
  · simp at h
  · split at h
    · simp at h
    · exact (Prod.ext_iff.mp h).2.symm

/-! ### The whole batch -/

/-- A group has target texts exactly if it was not canceled, or has nothing to do, and every text
compiles. -/
theorem compileAllUnder_eq_ok_iff {targets : List Bytes}
    (hfinished : ((Group.ofSources canceled contents).run schedule).Finished) :
    compileAllUnder schedule canceled contents = .ok targets ↔
      (canceled = false ∨ contents = []) ∧ contents.map compile = targets.map .ok := by
  have hkeeps := Group.keeps_run canceled contents schedule
  cases canceled with
  | false => simpa [compileAllUnder] using hkeeps.result_eq_ok_iff hfinished
  | true =>
    rw [compileAllUnder, hkeeps.result_of_canceled hfinished]
    by_cases hcontents : contents = []
    · simp [hcontents, eq_comm]
    · simp [hcontents]

private theorem compileFilesUnder_eq_ok_iff :
    compileFilesUnder schedule canceled names output w = (.ok (), w') ↔
      ∃ contents targets, readAll w.files names = .ok contents ∧
        compileAllUnder schedule canceled contents = .ok targets ∧
        w.emit output (outputText targets) = (.ok (), w') := by
  rw [compileFilesUnder]
  rcases readAll w.files names with fault | contents
  · simp
  rcases hgroup : compileAllUnder schedule canceled contents with fault | targets
  · simp [hgroup]
  rcases hemit : w.emit output (outputText targets) with ⟨fault | _, w₁⟩
  · simp [hgroup, hemit]
  · simp [hgroup, hemit]

/-- Whatever a batch fails for, it has changed nothing. -/
theorem eq_of_compileFilesUnder_error {fault : BatchFault}
    (h : compileFilesUnder schedule canceled names output w = (.error fault, w')) : w' = w := by
  rw [compileFilesUnder] at h
  split at h
  · exact (Prod.ext_iff.mp h).2.symm
  · split at h
    · exact (Prod.ext_iff.mp h).2.symm
    · split at h
      · simp at h
      · rename_i hemit
        exact (Prod.ext_iff.mp h).2.symm.trans (eq_of_emit_error hemit)

private theorem compileFilesUnder_of_group_error {fault : GroupFault}
    (hread : readAll w.files names = .ok contents)
    (hgroup : compileAllUnder schedule canceled contents = .error fault) :
    compileFilesUnder schedule canceled names output w = (.error (.ofGroup names fault), w) := by
  simp only [compileFilesUnder, hread, hgroup]

/-- If one unit alone does not compile, its fault is the report. -/
theorem compileAllUnder_of_unique {i : Nat} {s : Bytes} {e : Fault}
    (hfinished : ((Group.ofSources false contents).run schedule).Finished)
    (hi : contents[i]? = some s) (he : compile s = .error e)
    (honly : ∀ j s', contents[j]? = some s' → j ≠ i → ∃ target, compile s' = .ok target) :
    compileAllUnder schedule false contents = .error (.unit ⟨i, e⟩) := by
  rcases hresult : compileAllUnder schedule false contents with fault | targets
  · have hdue := (Group.keeps_run false contents schedule).result_eq_error hresult
    rcases fault with _ | ⟨j, e'⟩
    · cases hdue.1
    · obtain ⟨-, s', hs', he'⟩ := hdue
      -- no other unit can have been reported
      have hji : j = i := by
        by_contra hne
        obtain ⟨target, htarget⟩ := honly j s' hs' hne
        rw [htarget] at he'
        cases he'
      subst hji
      obtain rfl : s = s' := Option.some.inj (hi.symm.trans hs')
      obtain rfl : e = e' := Except.error.inj (he.symm.trans he')
      rfl
  · -- the failing unit would have a target text
    have hall := ((compileAllUnder_eq_ok_iff hfinished).mp hresult).2
    obtain ⟨target, htarget⟩ := Group.exists_ok_of_map_eq hall (List.mem_of_getElem? hi)
    rw [he] at htarget
    cases htarget

/-- Three turns for every file are enough. -/
theorem completes_of_count (h : ∀ i < names.length, 3 ≤ schedule.count i) (canceled : Bool)
    (t : FileTree) : Completes schedule canceled names t := by
  intro contents hread
  have hlength : names.length = contents.length := (readAll_eq_ok_iff.mp hread).length_eq
  exact Group.finished_run fun i hi => h i (hlength ▸ hi)

/-- **A batch does all or nothing.** Let the schedule end all units of the batch, whether this has been
canceled or not. If the batch fails, files and printed text are what they were. It succeeds exactly if
it was not canceled, or has no files, every file can be read and compiles, and the output can be written
to; the only change is then that the output has the target texts that are not empty, in order and each
with a line feed, where every target text is that of what its file held before. If all files can be
read, a batch of some files that was canceled says so, and if it was not canceled and one of the files
alone does not compile, the batch reports the name and the fault of this file. To compile the files one
by one is one of the schedules. -/
theorem batch_is_all_or_nothing (canceled : Bool) (names : List Bytes) (output : Bytes)
    (w : Workspace) :
    (∀ schedule, Completes schedule canceled names w.files →
      (∀ fault w', compileFilesUnder schedule canceled names output w = (.error fault, w') →
        w' = w) ∧
      ((∃ w', compileFilesUnder schedule canceled names output w = (.ok (), w')) ↔
        (canceled = false ∨ names = []) ∧ (∃ targets, List.Forall₂ (Yields w.files) names targets) ∧
          (output = utf8 "-" ∨ ∃ p, w.files.target output = .ok p)) ∧
      (∀ w', compileFilesUnder schedule canceled names output w = (.ok (), w') →
        ∃ targets, List.Forall₂ (Yields w.files) names targets ∧
          Delivered w output (targets.flatMap fun target =>
            if target = [] then [] else target ++ [lineFeed]) w') ∧
      ∀ contents : List Bytes,
        List.Forall₂ (fun name content => w.files.read name = .ok content) names contents →
        (canceled = true → names ≠ [] →
          compileFilesUnder schedule canceled names output w = (.error .canceled, w)) ∧
        (canceled = false → ∀ (i : Nat) (name s : Bytes) (e : Fault),
          names[i]? = some name → contents[i]? = some s → compile s = .error e →
          (∀ j s', contents[j]? = some s' → j ≠ i → ∃ target, compile s' = .ok target) →
          ∃ fault, compileFilesUnder schedule canceled names output w = (.error fault, w) ∧
            fault.message = name ++ utf8 ": " ++ e.message)) ∧
    ∃ schedule, Completes schedule canceled names w.files ∧
      compileFiles canceled names output w = compileFilesUnder schedule canceled names output w := by
  refine ⟨fun schedule hcompletes => ⟨fun fault w' => eq_of_compileFilesUnder_error, ?_, ?_,
    fun contents hreads => ⟨?_, ?_⟩⟩, Group.oneByOne names.length,
    completes_of_count (fun i => Group.count_oneByOne) canceled w.files, rfl⟩
  · constructor
    · rintro ⟨w', h⟩
      obtain ⟨contents, targets, hread, hgroup, hemit⟩ := compileFilesUnder_eq_ok_iff.mp h
      obtain ⟨hgoes, hall⟩ := (compileAllUnder_eq_ok_iff (hcompletes contents hread)).mp hgroup
      exact ⟨hgoes.imp_right (nil_iff_of_readAll hread).mpr,
        ⟨targets, forall₂_yields_iff.mpr ⟨contents, hread, hall⟩⟩, exists_emit_iff.mp ⟨w', hemit⟩⟩
    · rintro ⟨hgoes, ⟨targets, hyields⟩, houtput⟩
      obtain ⟨contents, hread, hall⟩ := forall₂_yields_iff.mp hyields
      obtain ⟨w', hemit⟩ := exists_emit_iff.mpr houtput
      have hgroup := (compileAllUnder_eq_ok_iff (hcompletes contents hread)).mpr
        ⟨hgoes.imp_right (nil_iff_of_readAll hread).mp, hall⟩
      exact ⟨w', compileFilesUnder_eq_ok_iff.mpr ⟨contents, targets, hread, hgroup, hemit⟩⟩
  · intro w' h
    obtain ⟨contents, targets, hread, hgroup, hemit⟩ := compileFilesUnder_eq_ok_iff.mp h
    obtain ⟨-, hall⟩ := (compileAllUnder_eq_ok_iff (hcompletes contents hread)).mp hgroup
    refine ⟨targets, forall₂_yields_iff.mpr ⟨contents, hread, hall⟩, ?_⟩
    rw [← outputText_eq]
    exact delivered_of_emit hemit
  · rintro rfl hnames
    have hread := readAll_eq_ok_iff.mpr hreads
    -- a batch of no files has no unit that could notice the cancelation
    have hcontents : contents ≠ [] := fun hnil => hnames ((nil_iff_of_readAll hread).mpr hnil)
    have hgroup : compileAllUnder schedule true contents = .error .canceled := by
      rw [compileAllUnder,
        (Group.keeps_run true contents schedule).result_of_canceled (hcompletes contents hread),
        if_neg hcontents]
    rw [compileFilesUnder_of_group_error hread hgroup, BatchFault.ofGroup]
  · rintro rfl i name s e hname hs he honly
    have hread := readAll_eq_ok_iff.mpr hreads
    have hgroup := compileAllUnder_of_unique (hcompletes contents hread) hs he honly
    refine ⟨.source name e, ?_, rfl⟩
    rw [compileFilesUnder_of_group_error hread hgroup, BatchFault.ofGroup, List.getD_eq_getElem?_getD,
      hname, Option.getD_some]

/-- Three files, one of them empty, and something that has been printed. -/
def threeFiles : Workspace where
  files := .ofFiles [(utf8 "a", utf8 "(+ 1 2)"), (utf8 "b", []), (utf8 "c", utf8 "(stdout \"c\")")]
  printed := utf8 "old"

/-- The output is one of the files, and this one is read twice. -/
theorem batch_is_all_or_nothing_overwriting :
    ∃ (w' : Workspace) (targets : List Bytes),
      compileFilesUnder [3, 1, 0, 2, 2, 0, 3, 1, 0, 1, 2, 3] false
        [utf8 "a", utf8 "b", utf8 "a", utf8 "c"] (utf8 "a") threeFiles = (.ok (), w') ∧
      List.Forall₂ (Yields threeFiles.files) [utf8 "a", utf8 "b", utf8 "a", utf8 "c"] targets ∧
      Delivered threeFiles (utf8 "a")
        (targets.flatMap fun target => if target = [] then [] else target ++ [lineFeed]) w' := by
  have hcompletes : Completes [3, 1, 0, 2, 2, 0, 3, 1, 0, 1, 2, 3] false
      [utf8 "a", utf8 "b", utf8 "a", utf8 "c"] threeFiles.files := completes_of_count (by decide) _ _
  have hsucceeds : (compileFilesUnder [3, 1, 0, 2, 2, 0, 3, 1, 0, 1, 2, 3] false
      [utf8 "a", utf8 "b", utf8 "a", utf8 "c"] (utf8 "a") threeFiles).1 = .ok () := by
    decide +kernel
  have hrun := Prod.ext (y := (Except.ok (), _)) hsucceeds rfl
  obtain ⟨targets, hyields, hdelivered⟩ :=
    ((batch_is_all_or_nothing false _ _ threeFiles).1 _ hcompletes).2.2.1 _ hrun
  exact ⟨_, targets, hrun, hyields, hdelivered⟩

end PrefixForth
