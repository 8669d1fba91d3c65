import PlainComponents.Program.Invocation
import PlainComponents.Proofs.Batch.Effect

/-!
# What the status says about the files

Status 2 has two kinds of causes.  An invocation ends with it before any file is worked on, because the
command line cannot be read, one of its paths leads nowhere or the workers cannot be started (`Aborts`);
then nothing has changed.  But it also ends with it after the run, when the summary is wanted as JSON and one
of the files has a path that is not UTF-8 (`Unprintable`); then the files are as the run left them.

* `status_two_effect` says that there is no other cause, and that files have changed under status 2
  exactly if the second one applies and the run has changed them;
* `Stray.json_status_two_written` is such an invocation: the file is converted and written, and the
  status is 2.
-/

namespace PlainComponents

open FileSystem

namespace Invocation

variable {host : Host} {env : Log.Environment} {fs last : FileSystem} {a : Arguments} {s : Summary}
  {log : List Line} {arguments : List Bytes}

/-! ### Causes -/

/-- The invocation ends before any file is worked on. -/
inductive Aborts (host : Host) (fs : FileSystem) (arguments : List Bytes) : Prop
  /-- The command line cannot be read, and it does not ask for help. -/
  | unread {e : UsageError} (h : Arguments.read arguments = .error e) (he : e ≠ .help)
  /-- One of the paths leads nowhere, or the workers cannot be started. -/
  | refused {a : Arguments} {e : RunError} (h : Arguments.read arguments = .ok a)
      (he : Refused host a.options fs a.paths e)

/-- The summary is wanted as JSON, and a file is found by a path that is not UTF-8. -/
def Unprintable (fs : FileSystem) (a : Arguments) : Prop :=
  a.json = true ∧ ∃ paths, Discovery.discover fs a.options.extensions a.paths = .ok paths ∧
    ∃ path ∈ paths, Text.decode? path = none

/-! ### Printing the summary -/

theorem exists_reportDocument_eq_error_iff {r : Report} :
    (∃ e, reportDocument r = .error e) ↔ Text.decode? r.path = none := by
  unfold reportDocument
  cases Text.decode? r.path with
  | none => exact iff_of_true ⟨_, rfl⟩ rfl
  | some path => simp

/-- A summary cannot be written as JSON exactly if one of its paths is not UTF-8. -/
theorem exists_summaryDocument_eq_error_iff :
    (∃ e, summaryDocument s = .error e) ↔ ∃ r ∈ s.files, Text.decode? r.path = none := by
  have hfiles : (∃ e, summaryDocument s = .error e) ↔ ∃ e, s.files.mapM reportDocument = .error e := by
    unfold summaryDocument
    cases s.files.mapM reportDocument <;> simp [bind, Except.bind, pure, Except.pure]
  rw [hfiles, exists_mapM_eq_error_iff]
  simp only [exists_reportDocument_eq_error_iff]

theorem statusOf_ne_two (s : Summary) : statusOf s ≠ 2 := by
  unfold statusOf
  split <;> decide

theorem conclude_fileSystem : (conclude a log fs s).fileSystem = fs := by
  unfold conclude
  dsimp only
  split
  · split <;> rfl
  · rfl

/-- Of the runs that were done, those have status 2 whose summary is wanted as JSON and cannot be
written so. -/
theorem conclude_status_iff :
    (conclude a log fs s).status = 2 ↔ a.json = true ∧ ∃ r ∈ s.files, Text.decode? r.path = none := by
  rw [← exists_summaryDocument_eq_error_iff]
  unfold conclude
  dsimp only
  split
  next hjson =>
    cases hdocument : summaryDocument s with
    | ok document => simp [statusOf_ne_two]
    | error e => exact iff_of_true rfl ⟨hjson, e, rfl⟩
  next hjson => simp [statusOf_ne_two, hjson]

/-! ### Doing what is asked for -/

/-- If the run cannot be done, nothing is. -/
theorem perform_of_error {e : RunError} (env : Log.Environment)
    (h : run host a.options fs a.paths = (fs, .error e)) :
    (perform host env fs a).status = 2 ∧ (perform host env fs a).fileSystem = fs := by
  unfold perform
  rw [h]
  exact ⟨rfl, rfl⟩

/-- If the run is done, status 2 is left for a summary that cannot be written. -/
theorem perform_status_of_ok (env : Log.Environment) (h : run host a.options fs a.paths = (last, .ok s)) :
    (perform host env fs a).status = 2 ↔ Unprintable fs a := by
  have hscheduled := scheduled_run host a.options fs a.paths
  rw [h] at hscheduled
  have hreported := (accounted_of_scheduled hscheduled).reported
  unfold perform
  rw [h]
  show (conclude a _ _ s).status = 2 ↔ _
  rw [conclude_status_iff]
  apply and_congr_right
  intro _
  -- the reports are about the files that were found
  constructor
  · rintro ⟨r, hr, hpath⟩
    exact ⟨_, hreported, r.path, List.mem_map_of_mem hr, hpath⟩
  · rintro ⟨found, hfound, path, hmem, hpath⟩
    obtain rfl := Except.ok.inj (hreported.symm.trans hfound)
    obtain ⟨r, hr, rfl⟩ := List.mem_map.1 hmem
    exact ⟨r, hr, hpath⟩

/-- Printing changes no files. -/
theorem perform_fileSystem (host : Host) (env : Log.Environment) (fs : FileSystem) (a : Arguments) :
    (perform host env fs a).fileSystem = (run host a.options fs a.paths).1 := by
  unfold perform
  dsimp only
  split
  next h => rw [h]
  next h =>
    rw [h]
    exact conclude_fileSystem

/-! ### Invocations -/

theorem invoke_of_unread {e : UsageError} (host : Host) (env : Log.Environment) (fs : FileSystem)
    (h : Arguments.read arguments = .error e) :
    ((invoke host env fs arguments).status = 2 ↔ e ≠ .help) ∧
      (invoke host env fs arguments).fileSystem = fs := by
  unfold invoke
  rw [h]
  cases e <;> simp [refuse]

theorem invoke_of_read (host : Host) (env : Log.Environment) (fs : FileSystem)
    (h : Arguments.read arguments = .ok a) :
    invoke host env fs arguments = perform host env fs a := by
  rw [invoke, h]

/-- An invocation that ends before any file is worked on has status 2 and changes nothing. -/
theorem invoke_of_aborts (env : Log.Environment) (h : Aborts host fs arguments) :
    (invoke host env fs arguments).status = 2 ∧ (invoke host env fs arguments).fileSystem = fs := by
  cases h with
  | unread h he =>
    obtain ⟨hstatus, hfiles⟩ := invoke_of_unread host env fs h
    exact ⟨hstatus.2 he, hfiles⟩
  | refused h he =>
    obtain ⟨e, hrun⟩ := run_of_refused he
    rw [invoke_of_read host env fs h]
    exact perform_of_error env hrun

/-- Where nothing is amiss before the run, status 2 is left for a summary that cannot be written. -/
theorem invoke_status_of_not_aborts (env : Log.Environment) (h : ¬ Aborts host fs arguments) :
    (invoke host env fs arguments).status = 2 ↔
      ∃ a, Arguments.read arguments = .ok a ∧ Unprintable fs a := by
  cases hread : Arguments.read arguments with
  | error e =>
    have hhelp : ¬ e ≠ .help := fun he => h (.unread hread he)
    have hstatus := (invoke_of_unread host env fs hread).1
    simp [hstatus, hhelp]
  | ok a =>
    rcases hrun : run host a.options fs a.paths with ⟨last, e | s⟩
    · have hscheduled := scheduled_run host a.options fs a.paths
      rw [hrun] at hscheduled
      exact absurd (.refused hread (refused_of_scheduled hscheduled).2) h
    · rw [invoke_of_read host env fs hread, perform_status_of_ok env hrun]
      simp

/-- The causes of status 2, and those under which files have changed all the same. -/
theorem status_two_effect (host : Host) (env : Log.Environment) (fs : FileSystem)
    (arguments : List Bytes) :
    ((invoke host env fs arguments).status = 2 ↔
      Aborts host fs arguments ∨ ∃ a, Arguments.read arguments = .ok a ∧ Unprintable fs a) ∧
    ((invoke host env fs arguments).status = 2 ∧ (invoke host env fs arguments).fileSystem ≠ fs ↔
      ∃ a, Arguments.read arguments = .ok a ∧ Unprintable fs a ∧
        (run host a.options fs a.paths).1 ≠ fs) := by
  have hstatus : (invoke host env fs arguments).status = 2 ↔
      Aborts host fs arguments ∨ ∃ a, Arguments.read arguments = .ok a ∧ Unprintable fs a := by
    by_cases h : Aborts host fs arguments
    · exact iff_of_true (invoke_of_aborts env h).1 (.inl h)
    · rw [invoke_status_of_not_aborts env h, or_iff_right h]
  have hfiles : ∀ a, Arguments.read arguments = .ok a →
      (invoke host env fs arguments).fileSystem = (run host a.options fs a.paths).1 := by
    intro a ha
    rw [invoke_of_read host env fs ha]
    exact perform_fileSystem host env fs a
  refine ⟨hstatus, ?_⟩
  rw [hstatus]
  constructor
  · rintro ⟨h | ⟨a, ha, hprint⟩, hne⟩
    · exact absurd (invoke_of_aborts env h).2 hne
    · exact ⟨a, ha, hprint, hfiles a ha ▸ hne⟩
  · rintro ⟨a, ha, hprint, hne⟩
    exact ⟨.inr ⟨a, ha, hprint⟩, (hfiles a ha).symm ▸ hne⟩

end Invocation

/-! ### A file with a stray byte in its name -/

namespace Stray

def path : Path := [0xff] ++ Bytes.ofString ".tsx"

def files : FileSystem :=
  ⟨[([path], .file 0o644 (Text.encode single.text))], []⟩

def arguments : List Bytes := [path, Bytes.ofString "--json"]

/-- What the command line asks for. -/
def asked : Arguments where
  paths := [path]
  json := true
  options :=
    { dryRun := false
      keepOutput := false
      parser := .auto
      extensions := Options.usualExtensions
      jobs := none }

theorem read_eq : Arguments.read arguments = .ok asked := rfl

theorem discover_eq : Discovery.discover files asked.options.extensions asked.paths = .ok [path] := by
  cbv

theorem unprintable : Invocation.Unprintable files asked :=
  ⟨rfl, [path], discover_eq, path, by simp, by cbv⟩

theorem due : Due Paired.host.parse asked.options files path [path] 0o644 Paired.converted :=
  Paired.due_of_single (by cbv) rfl rfl

/-- What is left once the file has been written. -/
def written : FileSystem :=
  files.set [path] (.file 0o644 (Text.encode Paired.converted))

theorem run_eq : run Paired.host asked.options files asked.paths =
    (written, .ok (.ofReports [⟨path, .modified, none⟩])) := by
  have hseparate : files.Separate [path] := List.pairwise_singleton _ _
  have hfree : files.Replaceable [path] := replaceable_of_unlocked rfl
  rw [run_of_ok discover_eq rfl, Pool.processFiles_of_separate _ _ hseparate,
    List.filterMap_cons_some (due?_of_due rfl due hfree), List.map_singleton,
    foreseen_of_due due (.inr hfree)]
  rfl

/-- The environment without any settings. -/
def silent : Log.Environment := ⟨none, none, none⟩

/-- The file is converted and written, and then its name cannot be printed: status 2 does not say that
nothing was written. -/
theorem json_status_two_written :
    (Invocation.invoke Paired.host silent files arguments).status = 2 ∧
    files.get? [path] = some (.file 0o644 (Text.encode single.text)) ∧
    (Invocation.invoke Paired.host silent files arguments).fileSystem.get? [path] =
      some (.file 0o644 (Text.encode Paired.converted)) ∧
    (Invocation.invoke Paired.host silent files arguments).fileSystem ≠ files := by
  have hbefore : files.get? [path] = some (.file 0o644 (Text.encode single.text)) := rfl
  have hafter : (Invocation.invoke Paired.host silent files arguments).fileSystem.get? [path] =
      some (.file 0o644 (Text.encode Paired.converted)) := by
    rw [Invocation.invoke_of_read _ _ _ read_eq, Invocation.perform_fileSystem, run_eq]
    exact get?_set_self (by simp)
  refine ⟨?_, hbefore, hafter, fun heq => ?_⟩
  · rw [Invocation.invoke_of_read _ _ _ read_eq, Invocation.perform_status_of_ok _ run_eq]
    exact unprintable
  · rw [heq, hbefore] at hafter
    exact absurd hafter (by decide)

end Stray

end PlainComponents
