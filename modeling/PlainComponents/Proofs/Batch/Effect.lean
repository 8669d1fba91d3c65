import PlainComponents.Proofs.Batch.Arrangement
import PlainComponents.Proofs.Batch.Schedule

/-!
# What a run does to the file system

A run that ends with a summary reports on every file that was found, and has changed the contents of the
files that it reports as modified and nothing else (`Accounted`).  A run that ends with an error has changed
nothing, and it does so exactly if one of the paths leads nowhere or its workers cannot be started
(`Refused`).  Both hold whatever the order in which the workers read and write, also if several paths lead to
one file: `run_effect`.

A dry run changes nothing at all, and says what a run that writes would say, where nothing is locked:
`dry_run_forecast`.
-/

namespace PlainComponents

open FileSystem Relation

section Runs

variable {host : Host} {options : Options} {fs last : FileSystem} {roots paths : List Path}

/-! ### Counting reports -/

def Outcome.isFailed : Outcome → Bool
  | failed _ => true
  | _ => false

/-- Counting adds, for every outcome, the number of reports that have it. -/
theorem Summary.foldl_count (reports : List Report) (s : Summary) :
    (reports.foldl count s).modified = s.modified + reports.countP (·.outcome = .modified) ∧
    (reports.foldl count s).unmodified = s.unmodified + reports.countP (·.outcome = .unmodified) ∧
    (reports.foldl count s).failed = s.failed + reports.countP (·.outcome.isFailed) := by
  induction reports generalizing s with
  | nil => exact ⟨rfl, rfl, rfl⟩
  | cons r reports ih =>
    obtain ⟨hmodified, hunmodified, hfailed⟩ := ih (s.count r)
    rw [List.foldl_cons, hmodified, hunmodified, hfailed]
    cases h : r.outcome <;> simp [count, h, Outcome.isFailed] <;> omega

/-! ### What is written -/

/-- What is due has been written once all files are done, if no two of them are one. -/
theorem get?_of_due {path : Path} {loc : Location} {mode : Nat} {text : Text}
    (hdry : options.dryRun = false) (h : fs.Separate paths) (hpath : path ∈ paths)
    (hdue : Due host.parse options fs path loc mode text) (hfree : fs.Replaceable loc) :
    (fs.setAll (paths.filterMap (due? host.parse options fs))).get? loc =
      some (.file mode (Text.encode text)) := by
  obtain ⟨before, after, rfl⟩ := List.append_of_mem hpath
  obtain ⟨old, src, hget, -⟩ := hdue.converts
  rw [Separate, List.pairwise_append, List.pairwise_cons] at h
  obtain ⟨-, ⟨hafter, -⟩, -⟩ := h
  have hne : ∀ w ∈ after.filterMap (due? host.parse options fs), w.1 ≠ loc := by
    intro w hw
    obtain ⟨q, hq, hw⟩ := List.mem_filterMap.1 hw
    exact ne_of_not_sameFile (hafter q hq) hdue hw
  rw [List.filterMap_append, List.filterMap_cons_some (due?_of_due hdry hdue hfree), setAll_append]
  exact (get?_setAll_of_ne hne).trans (get?_set_self (ne_nil_of_get? hget (by simp)))

/-! ### Whole runs -/

/-- What a run that ends with a summary has done. -/
structure Accounted (host : Host) (options : Options) (fs : FileSystem) (roots : List Path)
    (last : FileSystem) (summary : Summary) : Prop where
  /-- There is one report for each file found, in the order in which they were found. -/
  reported : Discovery.discover fs options.extensions roots = .ok (summary.files.map Report.path)
  modified : summary.modified = summary.files.countP (·.outcome = .modified)
  unmodified : summary.unmodified = summary.files.countP (·.outcome = .unmodified)
  failed : summary.failed = summary.files.countP (·.outcome.isFailed)
  /-- Locations, directories, links, modes and locks are what they were. -/
  skeleton : last.skeleton = fs.skeleton
  /-- What no modified path leads to is what it was. -/
  frame : ∀ loc, (∀ r ∈ summary.files, r.outcome = .modified → fs.resolve r.path ≠ .ok loc) →
    last.get? loc = fs.get? loc
  /-- The files reported as modified are those for which there is something to write and, unless the run is
  dry, that can be written. -/
  due : fs.Separate (summary.files.map Report.path) → ∀ r ∈ summary.files,
    (r.outcome = .modified ↔ ∃ loc mode text, Due host.parse options fs r.path loc mode text ∧
      (options.dryRun = true ∨ fs.Replaceable loc))
  /-- A file that is reported as modified holds the text that it was converted to. -/
  written : options.dryRun = false → fs.Separate (summary.files.map Report.path) →
    ∀ r ∈ summary.files, r.outcome = .modified → ∃ loc mode text,
      Due host.parse options fs r.path loc mode text ∧
      last.get? loc = some (.file mode (Text.encode text))

/-- Any interleaving that has come to its end accounts for what it has done. -/
theorem accounted_of_reaches {reports : List Report}
    (hfiles : Discovery.discover fs options.extensions roots = .ok paths)
    (hs : ReflTransGen (Pool.Step host options) (.start fs paths) (.done last reports)) :
    Accounted host options fs roots last (.ofReports reports) := by
  have hframed := (Pool.framed_start options fs paths).reaches hs
  have hpaths := Pool.map_path_of_reaches_done hs
  obtain ⟨hmodified, hunmodified, hfailed⟩ := Summary.foldl_count reports .empty
  have hforeseen : fs.Separate (reports.map Report.path) →
      last = fs.setAll (paths.filterMap (due? host.parse options fs)) ∧
      reports = paths.map (foreseen host options fs) := by
    intro hseparate
    exact Pool.eq_of_reaches_done (hpaths ▸ hseparate) hs
  have hdue : fs.Separate (reports.map Report.path) → ∀ r ∈ reports,
      (r.outcome = .modified ↔ ∃ loc mode text, Due host.parse options fs r.path loc mode text ∧
        (options.dryRun = true ∨ fs.Replaceable loc)) := by
    intro hseparate r hr
    rw [(hforeseen hseparate).2] at hr
    obtain ⟨path, -, rfl⟩ := List.mem_map.1 hr
    rw [path_foreseen]
    exact modified_foreseen_iff
  refine ⟨hfiles.trans (congrArg _ hpaths.symm), ?_, ?_, ?_, hframed.skeleton, ?_, hdue, ?_⟩
  · exact hmodified.trans (Nat.zero_add _)
  · exact hunmodified.trans (Nat.zero_add _)
  · exact hfailed.trans (Nat.zero_add _)
  · intro loc hloc
    refine hframed.frame loc fun r hr => hloc r ?_
    show r ∈ reports
    simpa [Pool.done] using hr
  · intro hdry hseparate r hr houtcome
    obtain ⟨loc, mode, text, h, hfree⟩ := (hdue hseparate r hr).1 houtcome
    have hpath : r.path ∈ paths := hpaths ▸ List.mem_map_of_mem hr
    have hfree : fs.Replaceable loc := hfree.resolve_left (by simp [hdry])
    rw [(hforeseen hseparate).1]
    exact ⟨loc, mode, text, h, get?_of_due hdry (hpaths ▸ hseparate) hpath h hfree⟩

theorem accounted_of_scheduled {summary : Summary}
    (h : Scheduled host options fs roots (last, .ok summary)) :
    Accounted host options fs roots last summary := by
  cases h with
  | completed hfiles _ hs => exact accounted_of_reaches hfiles hs

/-- Why a run ends before any file is worked on. -/
inductive Refused (host : Host) (options : Options) (fs : FileSystem) (roots : List Path) :
    RunError → Prop
  /-- One of the paths leads nowhere. -/
  | path {root : Path} {error : FileError} (hroot : root ∈ roots)
      (h : fs.resolve root = .error error) : Refused host options fs roots (.path ⟨root, error⟩)
  /-- The workers cannot be started. -/
  | pool {reason : String} (h : host.poolError options.jobs = some reason) :
      Refused host options fs roots (.pool reason)

theorem refused_of_scheduled {e : RunError} (h : Scheduled host options fs roots (last, .error e)) :
    last = fs ∧ Refused host options fs roots e := by
  cases h with
  | refused hfiles =>
    obtain ⟨hroot, herror⟩ := Discovery.unresolved_of_discover hfiles
    exact ⟨rfl, .path hroot herror⟩
  | unmanned _ hpool => exact ⟨rfl, .pool hpool⟩

theorem run_of_refused {e : RunError} (h : Refused host options fs roots e) :
    ∃ e', run host options fs roots = (fs, .error e') := by
  cases hfiles : Discovery.discover fs options.extensions roots with
  | error e => exact ⟨_, run_of_error hfiles⟩
  | ok paths =>
    cases h with
    | path hroot herror =>
      obtain ⟨e, he⟩ := Discovery.exists_discover_eq_error_iff.2 ⟨_, hroot, _, herror⟩
      cases hfiles.symm.trans he
    | pool hpool => exact ⟨_, run_of_poolError hfiles hpool⟩

/-- **What a run does to a file system**, in whatever order its workers read and write: with a summary, what
the summary says and nothing else; with an error, nothing.  It ends with an error if any of the paths leads
nowhere.  If none does and the workers can be started, the work can be completed however far it has come. -/
theorem run_effect (host : Host) (options : Options) (fs : FileSystem) (roots : List Path) :
    Scheduled host options fs roots (run host options fs roots) ∧
    (∀ last summary, Scheduled host options fs roots (last, .ok summary) →
      Accounted host options fs roots last summary) ∧
    (∀ last e, Scheduled host options fs roots (last, .error e) →
      last = fs ∧ Refused host options fs roots e) ∧
    (∀ root ∈ roots, ∀ error, fs.resolve root = .error error →
      ∀ result, Scheduled host options fs roots result → ∃ e, result = (fs, .error (.path e))) ∧
    ∀ paths, Discovery.discover fs options.extensions roots = .ok paths →
      host.poolError options.jobs = none → ∀ pool,
      ReflTransGen (Pool.Step host options) (.start fs paths) pool → ∃ last reports,
        ReflTransGen (Pool.Step host options) pool (.done last reports) ∧
        Scheduled host options fs roots (last, .ok (.ofReports reports)) := by
  refine ⟨scheduled_run host options fs roots, fun last summary => accounted_of_scheduled,
    fun last e => refused_of_scheduled, ?_, ?_⟩
  · intro root hroot error herror result hresult
    obtain ⟨e, he⟩ := Discovery.exists_discover_eq_error_iff.2 ⟨root, hroot, error, herror⟩
    cases hresult with
    | refused hfiles => exact ⟨_, rfl⟩
    | unmanned hfiles _ => cases hfiles.symm.trans he
    | completed hfiles _ _ => cases hfiles.symm.trans he
  · intro paths hfiles hpool pool hs
    obtain ⟨last, reports, hrest⟩ := Pool.exists_done host options pool
    exact ⟨last, reports, hrest, .completed hfiles hpool (hs.trans hrest)⟩

end Runs

/-! ### Two paths to one file -/

namespace Linked

open Bytes (ofString)
open Paired (host options roots converted)

def a : Path := ofString "src/A.tsx"

def b : Path := ofString "src/B.tsx"

def c : Path := ofString "src/C.tsx"

def d : Path := ofString "src/D.tsx"

/-- The file that two paths lead to. -/
def shared : Location := [ofString "src", ofString "A.tsx"]

/-- The file in a locked directory. -/
def kept : Location := [ofString "lib", ofString "D.tsx"]

/-- A file and a link to it, a file that may not be read, and a link to a file in a locked directory. -/
def files : FileSystem where
  entries :=
    [([ofString "src"], .directory),
      (shared, .file 0o644 (Text.encode single.text)),
      ([ofString "src", ofString "B.tsx"], .link (ofString "A.tsx")),
      ([ofString "src", ofString "C.tsx"], .file 0o200 (Text.encode single.text)),
      ([ofString "src", ofString "D.tsx"], .link (ofString "../lib/D.tsx")),
      ([ofString "lib"], .directory),
      (kept, .file 0o644 (Text.encode single.text))]
  locked := [[ofString "lib"]]

/-- What is left once the shared file has been written. -/
def written : FileSystem :=
  files.set shared (.file 0o644 (Text.encode converted))

/-- What is said of the temporary file in the locked directory. -/
def complaint : String :=
  Staging.usual.complaint [ofString "lib", ofString ".defc.00000"]

/-- What is reported if all files are read before one is written. -/
def reports : List Report :=
  [⟨a, .modified, some converted⟩, ⟨b, .modified, some converted⟩,
    ⟨c, .failed "Permission denied (os error 13)", none⟩, ⟨d, .failed complaint, none⟩]

theorem discover_eq : Discovery.discover files options.extensions roots = .ok [a, b, c, d] := by
  cbv

theorem due_a : Due host.parse options files a shared 0o644 converted :=
  Paired.due_of_single (by cbv) rfl rfl

theorem due_b : Due host.parse options files b shared 0o644 converted :=
  Paired.due_of_single (by cbv) rfl rfl

theorem due_d : Due host.parse options files d kept 0o644 converted :=
  Paired.due_of_single (by cbv) rfl rfl

theorem plan_c : Plan.ofFile host.parse options files c = .unreadable .denied := by
  cbv

theorem obstacle_d : files.obstacle? host.staging kept = some (.unstaged complaint) := by
  have htemporary : files.temporary .usual kept = [ofString "lib", ofString ".defc.00000"] := by cbv
  have hlocked : ¬ files.Replaceable kept := by decide
  show files.obstacle? .usual kept = _
  rw [obstacle?_of_locked hlocked, htemporary, complaint]

theorem replaceable_shared : files.Replaceable shared := by
  decide

theorem skeleton_written : written.skeleton = files.skeleton :=
  skeleton_set_file rfl _

theorem set_written : written.set shared (.file 0o644 (Text.encode converted)) = written := by
  decide

/-- All files are read. -/
theorem reaches_read : ReflTransGen (Pool.Step host options) (.start files [a, b, c, d])
    ⟨files, [.writing a converted, .writing b converted, .finished (foreseen host options files c),
      .writing d converted]⟩ := by
  have hc : (Plan.ofFile host.parse options files c).pending? options = none := by
    rw [plan_c]
    rfl
  have hread := ReflTransGen.single
    (Pool.step_of_due rfl due_a [] [.waiting b, .waiting c, .waiting d])
  have hread := hread.tail
    (Pool.step_of_due rfl due_b [.writing a converted] [.waiting c, .waiting d])
  have hread := hread.tail
    (Pool.step_of_not_pending hc [.writing a converted, .writing b converted] [.waiting d])
  exact hread.tail (Pool.step_of_due rfl due_d
    [.writing a converted, .writing b converted, .finished (foreseen host options files c)] [])

/-- One file is written twice, to the same effect, and the one in the locked directory is not. -/
theorem reaches_written : ReflTransGen (Pool.Step host options)
    ⟨files, [.writing a converted, .writing b converted, .finished (foreseen host options files c),
      .writing d converted]⟩ (.done written reports) := by
  have hc : foreseen host options files c = ⟨c, .failed "Permission denied (os error 13)", none⟩ := by
    rw [foreseen, plan_c]
    rfl
  obtain ⟨-, ha⟩ : _ ∧ (Plan.write converted).carryOut host.staging options a files = _ :=
    Pool.carryOut_write_of_skeleton rfl rfl due_a.resolves rfl replaceable_shared
  obtain ⟨-, hb⟩ : _ ∧ (Plan.write converted).carryOut host.staging options b written = _ :=
    Pool.carryOut_write_of_skeleton rfl skeleton_written due_b.resolves rfl replaceable_shared
  have hd : (Plan.write converted).carryOut host.staging options d written = _ :=
    Pool.carryOut_of_skeleton_of_obstacle rfl skeleton_written due_d.resolves obstacle_d
  have hfree : files.obstacle? host.staging shared = none := obstacle?_eq_none_iff.2 replaceable_shared
  rw [Plan.forecast_write ((hindrance?_of_resolve rfl due_a.resolves).trans hfree)] at ha
  rw [set_written, Plan.forecast_write ((hindrance?_of_resolve rfl due_b.resolves).trans hfree)] at hb
  rw [Plan.forecast_of_hindrance ((hindrance?_of_resolve rfl due_d.resolves).trans obstacle_d)] at hd
  have hfirst : Pool.Step host options _ _ := .write files [] a converted
    [.writing b converted, .finished (foreseen host options files c), .writing d converted]
  have hsecond : Pool.Step host options _ _ := .write written
    [.finished ⟨a, .modified, some converted⟩] b converted
    [.finished (foreseen host options files c), .writing d converted]
  have hthird : Pool.Step host options _ _ := .write written
    [.finished ⟨a, .modified, some converted⟩, .finished ⟨b, .modified, some converted⟩,
      .finished (foreseen host options files c)] d converted []
  rw [ha] at hfirst
  rw [hb] at hsecond
  rw [hd, hc] at hthird
  rw [hc] at hfirst hsecond ⊢
  exact ((ReflTransGen.single hfirst).tail hsecond).tail hthird

/-- If all four files are read before one is written, two reports say that the shared file was modified, the
closed file and the one in the locked directory fail, and the shared file holds the converted text.  With a
path that leads nowhere at the end, nothing is done. -/
theorem run_accounted :
    Scheduled host options files roots (written, .ok (.ofReports reports)) ∧
    Accounted host options files roots written (.ofReports reports) ∧
    (Summary.ofReports reports).modified = 2 ∧ (Summary.ofReports reports).failed = 2 ∧
    written.get? shared = some (.file 0o644 (Text.encode converted)) ∧
    files.resolve (ofString "E.tsx") = .error .notFound ∧
    ∀ result, Scheduled host options files (roots ++ [ofString "E.tsx"]) result →
      ∃ e, result = (files, .error (.path e)) := by
  have hscheduled : Scheduled host options files roots (written, .ok (.ofReports reports)) :=
    .completed discover_eq rfl (reaches_read.trans reaches_written)
  have hnowhere : files.resolve (ofString "E.tsx") = .error .notFound := by cbv
  obtain ⟨-, haccounted, -⟩ := run_effect host options files roots
  obtain ⟨-, -, -, hfails, -⟩ := run_effect host options files (roots ++ [ofString "E.tsx"])
  exact ⟨hscheduled, haccounted _ _ hscheduled, rfl, rfl, rfl, hnowhere,
    hfails _ (by simp) _ hnowhere⟩

end Linked

/-! ### Dry runs -/

section DryRuns

variable {host : Host} {options : Options} {fs : FileSystem} {roots paths : List Path}

theorem processFiles_of_dry (h : options.dryRun = true) (paths : List Path) :
    (processFiles host options fs paths).1 = fs := by
  have hpending : ∀ path ∈ paths, (Plan.ofFile host.parse options fs path).pending? options = none := by
    intro path _
    cases Plan.ofFile host.parse options fs path <;> simp [Plan.pending?, h]
  rw [processFiles_of_not_pending hpending]

/-- Where nothing is locked, nothing keeps a file from being written. -/
theorem hindrance?_of_unlocked {staging : Staging} {path : Path} (h : fs.locked = []) :
    hindrance? staging options fs path = none := by
  cases hp : fs.resolve path with
  | error e => simp [hindrance?, hp]
  | ok loc => exact (hindrance?_eq_none_iff hp).2 (.inr (replaceable_of_unlocked h))

/-- Where nothing is locked, whether a run is dry makes no difference to what is foreseen. -/
theorem foreseen_eq_of_unlocked (h : fs.locked = []) (dry : Bool) (path : Path) :
    foreseen host { options with dryRun := dry } fs path = foreseen host options fs path := by
  show (Plan.ofFile host.parse options fs path).forecast host.staging _ fs path = foreseen _ _ _ _
  rw [foreseen]
  cases Plan.ofFile host.parse options fs path with
  | write text =>
    rw [Plan.forecast_write (hindrance?_of_unlocked h), Plan.forecast_write (hindrance?_of_unlocked h)]
  | _ => rfl

theorem reports_eq_of_separate (hlocked : fs.locked = []) (h : fs.Separate paths) (dry : Bool) :
    (processFiles host { options with dryRun := dry } fs paths).2 =
      paths.map (foreseen host options fs) := by
  rw [Pool.processFiles_of_separate host _ h]
  exact List.map_congr_left fun path _ => foreseen_eq_of_unlocked hlocked dry path

/-- A dry run leaves the file system alone, and it ends as the run does that writes: with the same error or
with the same summary.  Only a locked directory can keep a run from writing what a dry run says it would
write, so there are to be none. -/
theorem dry_run_forecast (host : Host) (options : Options) (fs : FileSystem) (roots : List Path)
    (hlocked : fs.locked = [])
    (h : ∀ paths, Discovery.discover fs options.extensions roots = .ok paths → fs.Separate paths) :
    (run host { options with dryRun := true } fs roots).2 =
      (run host { options with dryRun := false } fs roots).2 ∧
    (run host { options with dryRun := true } fs roots).1 = fs := by
  unfold run
  cases hfiles : Discovery.discover fs options.extensions roots with
  | error e => exact ⟨rfl, rfl⟩
  | ok paths =>
    dsimp only
    cases host.poolError options.jobs with
    | some reason => exact ⟨rfl, rfl⟩
    | none =>
      refine ⟨?_, processFiles_of_dry rfl paths⟩
      show Except.ok (Summary.ofReports _) = Except.ok (Summary.ofReports _)
      rw [reports_eq_of_separate hlocked (h paths hfiles) true,
        reports_eq_of_separate hlocked (h paths hfiles) false]

end DryRuns

namespace Paired

theorem run_eq : run host options files roots =
    (files.setAll [([Bytes.ofString "src", Bytes.ofString "A.tsx"], .file 0o644 (Text.encode converted)),
        ([Bytes.ofString "lib", Bytes.ofString "B.tsx"], .file 0o600 (Text.encode converted))],
      .ok (.ofReports [⟨a, .modified, some converted⟩, ⟨b, .modified, some converted⟩])) := by
  have hfree (loc : Location) : files.Replaceable loc := replaceable_of_unlocked rfl
  rw [run_of_ok discover_eq rfl, Pool.processFiles_of_separate host options separate]
  simp only [List.map_cons, List.map_nil, foreseen_of_due due_a (.inr (hfree _)),
    foreseen_of_due due_b (.inr (hfree _)),
    List.filterMap_cons_some (due?_of_due rfl due_a (hfree _)),
    List.filterMap_cons_some (due?_of_due rfl due_b (hfree _)), List.filterMap_nil]
  rfl

/-- The dry run over two files says that both would be modified, and modifies none. -/
theorem dry_run_modified :
    files.locked = [] ∧ files.Separate [a, b] ∧
    (run host { options with dryRun := true } files roots).2 =
      .ok (.ofReports [⟨a, .modified, some converted⟩, ⟨b, .modified, some converted⟩]) ∧
    (run host { options with dryRun := true } files roots).1 = files := by
  obtain ⟨hsame, hfiles⟩ := dry_run_forecast host options files roots rfl separate_discovered
  have hreal : (run host { options with dryRun := false } files roots).2 =
      .ok (.ofReports [⟨a, .modified, some converted⟩, ⟨b, .modified, some converted⟩]) :=
    congrArg Prod.snd run_eq
  exact ⟨rfl, separate, hsame.trans hreal, hfiles⟩

end Paired

end PlainComponents
