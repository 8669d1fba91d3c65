import Mathlib
import PlainComponents.Proofs.Batch.Forecast
import PlainComponents.Proofs.Component.AllOrNothing

/-!
# Schedules

The files of a run may be worked on by several workers at once.  The work on one file has two steps that
others can notice: the file is read, and later, if it is to change, it is replaced.  A `Pool` holds the
file system and, for each file, how far the work on it has come; `Pool.Step` takes one step for any one of
the files.  So a sequence of steps is an interleaving of the workers, and every interleaving is one.  None
of them gets stuck: `Pool.exists_done`.

Two invariants say what such a sequence does.

* `Pool.Framed` holds for any paths: nothing but contents changes, and only where a file is reported as
  modified.
* `Pool.Foretold` holds if no two paths lead to one file: then no step can be noticed by the work on another
  file, and each report and each write is the one that the file system at the start asks for.

Working on one file after the other is one of the interleavings (`reaches_processFiles`), so under the
second invariant all of them end as it does: `scheduled_iff_run`.
-/

namespace PlainComponents

open FileSystem Relation

/-! ### Pools -/

/-- How far the work on a file has come. -/
inductive Job where
  /-- The file has not been read. -/
  | waiting (path : Path)
  /-- The file has been read, and `text` is to be written. -/
  | writing (path : Path) (text : Text)
  | finished (report : Report)

namespace Job

def path : Job → Path
  | waiting path => path
  | writing path _ => path
  | finished report => report.path

/-- What the job comes to once its file has been read. -/
def ofPlan (staging : Staging) (options : Options) (path : Path) (fs : FileSystem) (plan : Plan) : Job :=
  match plan.pending? options with
  | some text => writing path text
  | none => finished (plan.carryOut staging options path fs).2

/-- The number of steps that are left, at most. -/
def toGo : Job → Nat
  | waiting _ => 2
  | writing _ _ => 1
  | finished _ => 0

end Job

/-- The work on the files of a run. -/
structure Pool where
  fs : FileSystem
  jobs : List Job

namespace Pool

/-- All files are still to be read. -/
def start (fs : FileSystem) (paths : List Path) : Pool :=
  ⟨fs, paths.map .waiting⟩

/-- The work on all files is finished. -/
def done (fs : FileSystem) (reports : List Report) : Pool :=
  ⟨fs, reports.map .finished⟩

/-- One step of the work on one of the files. -/
inductive Step (host : Host) (options : Options) : Pool → Pool → Prop
  | read (fs : FileSystem) (before : List Job) (path : Path) (after : List Job) :
      Step host options ⟨fs, before ++ .waiting path :: after⟩
        ⟨fs, before ++
          .ofPlan host.staging options path fs (Plan.ofFile host.parse options fs path) :: after⟩
  | write (fs : FileSystem) (before : List Job) (path : Path) (text : Text) (after : List Job) :
      Step host options ⟨fs, before ++ .writing path text :: after⟩
        ⟨((Plan.write text).carryOut host.staging options path fs).1,
          before ++ .finished ((Plan.write text).carryOut host.staging options path fs).2 :: after⟩

variable {host : Host} {options : Options} {fs : FileSystem} {pool next : Pool}

/-! ### Coming to an end -/

/-- The number of steps that are left for all files, at most. -/
def toGo (pool : Pool) : Nat :=
  (pool.jobs.map Job.toGo).sum

theorem Step.toGo_lt (hs : Step host options pool next) : next.toGo < pool.toGo := by
  simp only [toGo]
  cases hs with
  | read now before path after =>
    have hread : (Job.waiting path).toGo = 2 := rfl
    have hrest : (Job.ofPlan host.staging options path now
        (Plan.ofFile host.parse options now path)).toGo ≤ 1 := by
      unfold Job.ofPlan
      split <;> simp [Job.toGo]
    simp only [List.map_append, List.map_cons, List.sum_append, List.sum_cons]
    omega
  | write now before path text after =>
    simp [Job.toGo]

/-- As long as not all files are finished there is a step to take. -/
theorem exists_done_or_step (host : Host) (options : Options) (pool : Pool) :
    (∃ last reports, pool = done last reports) ∨ ∃ next, Step host options pool next := by
  obtain ⟨now, jobs⟩ := pool
  by_cases h : ∀ job ∈ jobs, job ∈ Set.range Job.finished
  · have hjobs : jobs ∈ Set.range (List.map Job.finished) := Set.range_list_map Job.finished ▸ h
    obtain ⟨reports, rfl⟩ := hjobs
    exact .inl ⟨now, reports, rfl⟩
  · push Not at h
    obtain ⟨job, hjob, hne⟩ := h
    obtain ⟨before, after, rfl⟩ := List.append_of_mem hjob
    right
    cases job with
    | waiting path => exact ⟨_, .read now before path after⟩
    | writing path text => exact ⟨_, .write now before path text after⟩
    | finished r => exact absurd ⟨r, rfl⟩ hne

/-- However far the work has come, it can be brought to an end. -/
theorem exists_done (host : Host) (options : Options) (pool : Pool) :
    ∃ last reports, ReflTransGen (Step host options) pool (done last reports) := by
  induction hn : pool.toGo using Nat.strong_induction_on generalizing pool with
  | _ n ih =>
    rcases exists_done_or_step host options pool with ⟨last, reports, rfl⟩ | ⟨next, hstep⟩
    · exact ⟨last, reports, .refl⟩
    · obtain ⟨last, reports, hrest⟩ := ih next.toGo (hn ▸ hstep.toGo_lt) next rfl
      exact ⟨last, reports, .head hstep hrest⟩

/-! ### One file after the other -/

/-- A file is read for which there is nothing to write. -/
theorem step_of_not_pending {path : Path}
    (h : (Plan.ofFile host.parse options fs path).pending? options = none)
    (before after : List Job) : Step host options ⟨fs, before ++ .waiting path :: after⟩
      ⟨fs, before ++ .finished (foreseen host options fs path) :: after⟩ := by
  have hread : Step host options _ _ := .read fs before path after
  rwa [Job.ofPlan, h, Plan.carryOut_of_not_pending h] at hread

/-- A file is read for which there is a text to write. -/
theorem step_of_due {path : Path} {loc : Location} {mode : Nat} {text : Text}
    (hdry : options.dryRun = false) (h : Due host.parse options fs path loc mode text)
    (before after : List Job) : Step host options ⟨fs, before ++ .waiting path :: after⟩
      ⟨fs, before ++ .writing path text :: after⟩ := by
  have hpending := Plan.pending?_eq_some_iff.2 ⟨Plan.ofFile_eq_write_iff.2 ⟨loc, mode, h⟩, hdry⟩
  have hread : Step host options _ _ := .read fs before path after
  rwa [Job.ofPlan, hpending] at hread

/-- The steps for one file, without any other in between. -/
theorem reaches_processFile (host : Host) (options : Options) (fs : FileSystem)
    (before : List Job) (path : Path) (after : List Job) :
    ReflTransGen (Step host options) ⟨fs, before ++ .waiting path :: after⟩
      ⟨(processFile host options fs path).1,
        before ++ .finished (processFile host options fs path).2 :: after⟩ := by
  unfold processFile
  cases hpending : (Plan.ofFile host.parse options fs path).pending? options with
  | none =>
    rw [Plan.carryOut_of_not_pending hpending]
    exact .single (step_of_not_pending hpending before after)
  | some text =>
    obtain ⟨hplan, hdry⟩ := Plan.pending?_eq_some_iff.1 hpending
    obtain ⟨loc, mode, hdue⟩ := Plan.ofFile_eq_write_iff.1 hplan
    rw [hplan]
    exact (ReflTransGen.single (step_of_due hdry hdue before after)).tail
      (.write fs before path text after)

/-- Working on one file after the other is one of the interleavings. -/
theorem reaches_processFiles (host : Host) (options : Options) (fs : FileSystem)
    (before : List Job) (paths : List Path) :
    ReflTransGen (Step host options) ⟨fs, before ++ paths.map .waiting⟩
      ⟨(processFiles host options fs paths).1,
        before ++ (processFiles host options fs paths).2.map .finished⟩ := by
  induction paths generalizing fs before with
  | nil => exact .refl
  | cons path paths ih =>
    have hfirst := reaches_processFile host options fs before path (paths.map .waiting)
    have hrest := ih (processFile host options fs path).1
      (before ++ [.finished (processFile host options fs path).2])
    simp only [List.append_assoc, List.singleton_append] at hrest
    exact hfirst.trans hrest

/-! ### What any interleaving leaves alone -/

/-- A job that is not the one that changes stays. -/
theorem mem_of_ne {job old new : Job} {before after : List Job}
    (h : job ∈ before ++ old :: after) (hne : job ≠ old) : job ∈ before ++ new :: after := by
  rw [List.mem_append, List.mem_cons] at h ⊢
  exact h.imp_right fun h => .inr (h.resolve_left hne)

/-- The work on a file stays work on that file. -/
theorem Step.map_path (hs : Step host options pool next) :
    next.jobs.map Job.path = pool.jobs.map Job.path := by
  cases hs with
  | read now before path after =>
    have hpath : (Job.ofPlan host.staging options path now
        (Plan.ofFile host.parse options now path)).path = path := by
      cases hpending : (Plan.ofFile host.parse options now path).pending? options with
      | none => simp [Job.ofPlan, hpending, Job.path, Plan.carryOut_of_not_pending hpending]
      | some text => simp [Job.ofPlan, hpending, Job.path]
    rw [List.map_append, List.map_append, List.map_cons, List.map_cons, hpath]
    rfl
  | write now before path text after =>
    have hpath : ((Plan.write text).carryOut host.staging options path now).2.path = path := by
      simp only [Plan.carryOut]
      split
      · rfl
      · split <;> rfl
    simp only [List.map_append, List.map_cons, Job.path, hpath]

theorem map_path_of_reaches (hs : ReflTransGen (Step host options) pool next) :
    next.jobs.map Job.path = pool.jobs.map Job.path := by
  induction hs with
  | refl => rfl
  | tail _ hstep ih => exact hstep.map_path.trans ih

/-- There is one report for each file, in the order of the files. -/
theorem map_path_of_reaches_done {paths : List Path} {last : FileSystem} {reports : List Report}
    (hs : ReflTransGen (Step host options) (start fs paths) (done last reports)) :
    reports.map Report.path = paths := by
  simpa [done, start, Function.comp_def, Job.path] using map_path_of_reaches hs

/-- Nothing but contents has changed, and only where a file is reported as modified.  What is to be written
replaces a file. -/
structure Framed (options : Options) (fs : FileSystem) (pool : Pool) : Prop where
  skeleton : pool.fs.skeleton = fs.skeleton
  writing : ∀ path text, .writing path text ∈ pool.jobs → options.dryRun = false ∧
    ∃ loc mode old, fs.resolve path = .ok loc ∧ fs.get? loc = some (.file mode old)
  frame : ∀ loc, (∀ r, .finished r ∈ pool.jobs → r.outcome = .modified →
    fs.resolve r.path ≠ .ok loc) → pool.fs.get? loc = fs.get? loc

theorem framed_start (options : Options) (fs : FileSystem) (paths : List Path) :
    Framed options fs (start fs paths) where
  skeleton := rfl
  writing path text h := by simp [start] at h
  frame _ _ := rfl

section Write

variable {now : FileSystem} {path : Path} {text : Text} {loc : Location} {mode : Nat} {old : Bytes}

/-- What could not be replaced at the start cannot be replaced later. -/
theorem carryOut_of_skeleton_of_obstacle {e : FileError} (hdry : options.dryRun = false)
    (h : now.skeleton = fs.skeleton) (hp : fs.resolve path = .ok loc)
    (he : fs.obstacle? host.staging loc = some e) :
    (Plan.write text).carryOut host.staging options path now =
      (now, (Plan.write text).forecast host.staging options fs path) := by
  have hp' := (resolve_eq_of_skeleton h path).trans hp
  have he' := (obstacle?_eq_of_skeleton h host.staging loc).trans he
  rw [Plan.carryOut_of_obstacle hdry hp' he', Plan.forecast_eq_of_skeleton h]

/-- What could be replaced at the start can be replaced as long as only contents have changed. -/
theorem carryOut_write_of_skeleton (hdry : options.dryRun = false) (h : now.skeleton = fs.skeleton)
    (hp : fs.resolve path = .ok loc) (hget : fs.get? loc = some (.file mode old))
    (hfree : fs.Replaceable loc) :
    (now.set loc (.file mode (Text.encode text))).skeleton = fs.skeleton ∧
      (Plan.write text).carryOut host.staging options path now =
        (now.set loc (.file mode (Text.encode text)),
          (Plan.write text).forecast host.staging options fs path) := by
  obtain ⟨current, hcurrent⟩ := exists_file_of_skeleton h hget
  have hp' := (resolve_eq_of_skeleton h path).trans hp
  have hfree' : now.Replaceable loc := by rwa [Replaceable, isLocked, locked_eq_of_skeleton h]
  refine ⟨(skeleton_set_file hcurrent _).trans h, ?_⟩
  rw [Plan.carryOut_write hdry hp' hcurrent hfree', Plan.forecast_eq_of_skeleton h]

end Write

theorem Framed.step (h : Framed options fs pool) (hs : Step host options pool next) :
    Framed options fs next := by
  cases hs with
  | read now before path after =>
    -- the file system stays, and no job that was finished is lost
    refine ⟨h.skeleton, fun p t hmem => ?_, fun loc hloc => h.frame loc fun r hr =>
      hloc r (mem_of_ne hr (by simp))⟩
    by_cases hnew : .writing p t =
        Job.ofPlan host.staging options path now (Plan.ofFile host.parse options now path)
    · cases hpending : (Plan.ofFile host.parse options now path).pending? options with
      | none => simp [Job.ofPlan, hpending] at hnew
      | some text =>
        simp only [Job.ofPlan, hpending, Job.writing.injEq] at hnew
        obtain ⟨rfl, rfl⟩ := hnew
        obtain ⟨hplan, hdry⟩ := Plan.pending?_eq_some_iff.1 hpending
        obtain ⟨loc, mode, hp, -, old, src, hget, -⟩ := Plan.ofFile_eq_write_iff.1 hplan
        -- what is a file now was one at the start
        obtain ⟨first, hfirst⟩ := exists_file_of_skeleton h.skeleton.symm hget
        have hp' := (resolve_eq_of_skeleton h.skeleton p).symm.trans hp
        exact ⟨hdry, loc, mode, first, hp', hfirst⟩
    · exact h.writing p t (mem_of_ne hmem hnew)
  | write now before path text after =>
    obtain ⟨hdry, loc, mode, old, hp, hget⟩ := h.writing path text (by simp)
    have hhindrance : hindrance? host.staging options fs path = fs.obstacle? host.staging loc :=
      hindrance?_of_resolve hdry hp
    cases hobstacle : fs.obstacle? host.staging loc with
    | some e =>
      -- the file system stays, as when a file is read
      rw [carryOut_of_skeleton_of_obstacle hdry h.skeleton hp hobstacle]
      refine ⟨h.skeleton, fun p t hmem => h.writing p t (mem_of_ne hmem (by simp)), fun l hl => ?_⟩
      exact h.frame l fun r hr => hl r (mem_of_ne hr (by simp))
    | none =>
      have hfree := obstacle?_eq_none_iff.1 hobstacle
      obtain ⟨hskeleton, hcarry⟩ := carryOut_write_of_skeleton hdry h.skeleton hp hget hfree
      rw [hcarry, Plan.forecast_write (hhindrance.trans hobstacle)]
      refine ⟨hskeleton, fun p t hmem => h.writing p t (mem_of_ne hmem (by simp)), fun l hl => ?_⟩
      have hne : l ≠ loc := by
        rintro rfl
        exact hl ⟨path, .modified, if options.keepOutput then some text else none⟩ (by simp) rfl hp
      rw [get?_set_of_ne hne]
      exact h.frame l fun r hr => hl r (mem_of_ne hr (by simp))

theorem Framed.reaches (h : Framed options fs pool)
    (hs : ReflTransGen (Step host options) pool next) : Framed options fs next := by
  induction hs with
  | refl => exact h
  | tail _ hstep ih => exact ih.step hstep

end Pool

/-! ### What is foretold -/

/-- No two of the paths lead to one file. -/
def FileSystem.Separate (fs : FileSystem) (paths : List Path) : Prop :=
  paths.Pairwise fun p q => ¬ fs.SameFile p q

/-- What the job has come to is what the file system at the start asks for. -/
def Job.Foretold (host : Host) (options : Options) (fs : FileSystem) : Job → Prop
  | waiting _ => True
  | writing path text => (Plan.ofFile host.parse options fs path).pending? options = some text
  | finished r => r = foreseen host options fs r.path

/-- What the job has written, if it has done what the file system at the start asks for. -/
def Job.written? (parse : Parser) (options : Options) (fs : FileSystem) :
    Job → Option (Location × Entry)
  | finished r => due? parse options fs r.path
  | _ => none

namespace Pool

variable {host : Host} {options : Options} {fs : FileSystem} {pool next : Pool}

/-- All work so far is what the file system at the start asks for. -/
structure Foretold (host : Host) (options : Options) (fs : FileSystem) (pool : Pool) : Prop where
  framed : Framed options fs pool
  separate : fs.Separate (pool.jobs.map Job.path)
  jobs : ∀ job ∈ pool.jobs, job.Foretold host options fs
  files : pool.fs = fs.setAll (pool.jobs.filterMap (Job.written? host.parse options fs))

theorem foretold_start (host : Host) (options : Options) {paths : List Path}
    (h : fs.Separate paths) : Foretold host options fs (start fs paths) where
  framed := framed_start options fs paths
  separate := by
    have hpath : Job.path ∘ Job.waiting = id := rfl
    rwa [start, List.map_map, hpath, List.map_id]
  jobs job hjob := by
    obtain ⟨path, -, rfl⟩ := List.mem_map.1 hjob
    trivial
  files := by
    have hnone : Job.written? host.parse options fs ∘ Job.waiting = fun _ => none := rfl
    rw [start, List.filterMap_map, hnone, List.filterMap_none]
    rfl

/-- The other jobs are about other files. -/
theorem not_sameFile {job other : Job} {before after : List Job}
    (h : fs.Separate ((before ++ job :: after).map Job.path)) (hother : other ∈ before ++ after) :
    ¬ fs.SameFile job.path other.path := by
  rw [Separate, List.map_append, List.map_cons, List.pairwise_append, List.pairwise_cons] at h
  obtain ⟨-, ⟨hafter, -⟩, hbefore⟩ := h
  rcases List.mem_append.1 hother with hother | hother
  · rintro ⟨loc, mode, contents, hp, hq, hget⟩
    exact hbefore _ (List.mem_map_of_mem hother) _ List.mem_cons_self
      ⟨loc, mode, contents, hq, hp, hget⟩
  · exact hafter _ (List.mem_map_of_mem hother)

/-- The work done so far cannot be noticed by a job that waits. -/
theorem Foretold.agree {now : FileSystem} {before after : List Job} {path : Path}
    (h : Foretold host options fs ⟨now, before ++ .waiting path :: after⟩) : Agree fs now path := by
  refine ⟨resolve_eq_of_skeleton h.framed.skeleton path, fun loc hp => h.framed.frame loc ?_⟩
  intro r hr hmodified hq
  -- a report of a change is about a file, and that cannot be the file of this job
  have hforetold : r = _ := h.jobs _ hr
  rw [hforetold, modified_foreseen_iff] at hmodified
  obtain ⟨loc', mode, text, ⟨hq', -, old, src, hget, -⟩, -⟩ := hmodified
  obtain rfl : loc' = loc := Except.ok.inj (hq'.symm.trans hq)
  have hother : .finished r ∈ before ++ after := by simpa using hr
  exact not_sameFile h.separate hother ⟨loc', mode, old, hp, hq, hget⟩

/-- A job that is not finished has written nothing. -/
theorem Foretold.files_eq {now : FileSystem} {before after : List Job} {job : Job}
    (h : Foretold host options fs ⟨now, before ++ job :: after⟩)
    (hjob : job.written? host.parse options fs = none) :
    now = fs.setAll (before.filterMap (Job.written? host.parse options fs) ++
      after.filterMap (Job.written? host.parse options fs)) := by
  have hfiles := h.files
  rwa [List.filterMap_append, List.filterMap_cons_none hjob] at hfiles

/-- A write may be moved to its place in the order of the paths. -/
theorem Foretold.set_eq {now : FileSystem} {before after : List Job} {path : Path} {text : Text}
    {loc : Location} {mode : Nat} {e : Entry}
    (h : Foretold host options fs ⟨now, before ++ .writing path text :: after⟩)
    (hdue : Due host.parse options fs path loc mode text) :
    now.set loc e = fs.setAll (before.filterMap (Job.written? host.parse options fs) ++
      (loc, e) :: after.filterMap (Job.written? host.parse options fs)) := by
  obtain ⟨old, src, hget, -⟩ := hdue.converts
  have hlisted : fs.Listed loc := listed_of_get? hget (ne_nil_of_get? hget (by simp))
  have hne : ∀ w ∈ after.filterMap (Job.written? host.parse options fs), w.1 ≠ loc := by
    intro w hw
    obtain ⟨job, hjob, hw⟩ := List.mem_filterMap.1 hw
    have hother := not_sameFile h.separate (List.mem_append_right before hjob)
    cases job with
    | finished r => exact ne_of_not_sameFile hother hdue hw
    | waiting _ => cases hw
    | writing _ _ => cases hw
  calc now.set loc e
      = ((fs.setAll (before.filterMap (Job.written? host.parse options fs))).setAll
          (after.filterMap (Job.written? host.parse options fs))).set loc e := by
        rw [h.files_eq rfl, setAll_append]
    _ = ((fs.setAll (before.filterMap (Job.written? host.parse options fs))).set loc e).setAll
          (after.filterMap (Job.written? host.parse options fs)) :=
        (set_setAll_comm (hlisted.setAll _) hne).symm
    _ = _ := (setAll_append fs _ ((loc, e) :: _)).symm

theorem Foretold.step (h : Foretold host options fs pool) (hs : Step host options pool next) :
    Foretold host options fs next := by
  have hframed := h.framed.step hs
  have hseparate : fs.Separate (next.jobs.map Job.path) := hs.map_path ▸ h.separate
  cases hs with
  | read now before path after =>
    have hplan : Plan.ofFile host.parse options now path = Plan.ofFile host.parse options fs path :=
      Plan.ofFile_eq_of_agree h.agree
    rw [hplan] at hframed hseparate ⊢
    generalize hjob : Job.ofPlan host.staging options path now
      (Plan.ofFile host.parse options fs path) = new at *
    have hnew : new.Foretold host options fs ∧ new.written? host.parse options fs = none := by
      subst hjob
      cases hpending : (Plan.ofFile host.parse options fs path).pending? options with
      | none =>
        simp only [Job.ofPlan, hpending, Plan.carryOut_of_not_pending hpending, Job.Foretold,
          Job.written?, Plan.path_forecast, due?_eq_none hpending, and_true]
        exact Plan.forecast_eq_of_skeleton h.framed.skeleton _
      | some text => simp only [Job.ofPlan, hpending, Job.Foretold, Job.written?, and_self]
    refine ⟨hframed, hseparate, fun job hmem => ?_, ?_⟩
    · by_cases heq : job = new
      · exact heq ▸ hnew.1
      · exact h.jobs job (mem_of_ne hmem heq)
    · rw [List.filterMap_append, List.filterMap_cons_none hnew.2]
      exact h.files_eq rfl
  | write now before path text after =>
    have hmem : .writing path text ∈ before ++ .writing path text :: after := by simp
    have hpending : _ = some text := h.jobs _ hmem
    obtain ⟨hplan, hdry⟩ := Plan.pending?_eq_some_iff.1 hpending
    obtain ⟨loc, mode, hdue⟩ := Plan.ofFile_eq_write_iff.1 hplan
    obtain ⟨old, src, hget, -⟩ := hdue.converts
    have hreport : (Plan.write text).forecast host.staging options fs path =
        foreseen host options fs path := by rw [foreseen, hplan]
    have hjobs : ∀ job ∈ before ++ .finished (foreseen host options fs path) :: after,
        job.Foretold host options fs := by
      intro job hjob
      by_cases heq : job = .finished (foreseen host options fs path)
      · rw [heq, Job.Foretold, path_foreseen]
      · exact h.jobs job (mem_of_ne hjob heq)
    by_cases hfree : fs.Replaceable loc
    · obtain ⟨-, hcarry⟩ :=
        carryOut_write_of_skeleton hdry h.framed.skeleton hdue.resolves hget hfree
      rw [hcarry, hreport] at hframed hseparate ⊢
      refine ⟨hframed, hseparate, hjobs, ?_⟩
      have hdone : Job.written? host.parse options fs (.finished (foreseen host options fs path)) =
          some (loc, .file mode (Text.encode text)) := by
        rw [Job.written?, path_foreseen, due?_of_due hdry hdue hfree]
      rw [List.filterMap_append, List.filterMap_cons_some hdone]
      exact h.set_eq hdue
    · have he := obstacle?_of_locked hfree host.staging
      rw [carryOut_of_skeleton_of_obstacle hdry h.framed.skeleton hdue.resolves he, hreport]
        at hframed hseparate ⊢
      refine ⟨hframed, hseparate, hjobs, ?_⟩
      have hdone : Job.written? host.parse options fs (.finished (foreseen host options fs path)) =
          none := by
        rw [Job.written?, path_foreseen, due?_of_locked hdue.resolves hfree]
      rw [List.filterMap_append, List.filterMap_cons_none hdone]
      exact h.files_eq rfl

theorem Foretold.reaches (h : Foretold host options fs pool)
    (hs : ReflTransGen (Step host options) pool next) : Foretold host options fs next := by
  induction hs with
  | refl => exact h
  | tail _ hstep ih => exact ih.step hstep

/-- What any interleaving ends in: the reports are the forecasts, and what is due has been written. -/
theorem eq_of_reaches_done {paths : List Path} {last : FileSystem} {reports : List Report}
    (h : fs.Separate paths)
    (hs : ReflTransGen (Step host options) (start fs paths) (done last reports)) :
    last = fs.setAll (paths.filterMap (due? host.parse options fs)) ∧
      reports = paths.map (foreseen host options fs) := by
  obtain ⟨-, -, hjobs, hfiles⟩ := (foretold_start host options h).reaches hs
  have hpaths := map_path_of_reaches_done hs
  constructor
  · rw [← hpaths, List.filterMap_map]
    simpa [done, List.filterMap_map, Function.comp_def, Job.written?] using hfiles
  · rw [← hpaths, List.map_map]
    refine (List.map_id reports).symm.trans (List.map_congr_left fun r hr => ?_)
    exact hjobs (.finished r) (List.mem_map_of_mem hr)

/-- In particular, this is what working on one file after the other ends in. -/
theorem processFiles_of_separate {paths : List Path} (host : Host) (options : Options)
    (h : fs.Separate paths) :
    processFiles host options fs paths = (fs.setAll (paths.filterMap (due? host.parse options fs)),
      paths.map (foreseen host options fs)) := by
  obtain ⟨hlast, hreports⟩ := eq_of_reaches_done h (reaches_processFiles host options fs [] paths)
  exact Prod.ext hlast hreports

end Pool

/-! ### Runs of any schedule -/

section Runs

variable {host : Host} {options : Options} {fs : FileSystem} {roots paths : List Path}

theorem run_of_error {e : PathError}
    (h : Discovery.discover fs options.extensions roots = .error e) :
    run host options fs roots = (fs, .error (.path e)) := by
  rw [run, h]

theorem run_of_poolError {reason : String}
    (h : Discovery.discover fs options.extensions roots = .ok paths)
    (hpool : host.poolError options.jobs = some reason) :
    run host options fs roots = (fs, .error (.pool reason)) := by
  rw [run, h]
  dsimp only
  rw [hpool]

theorem run_of_ok (h : Discovery.discover fs options.extensions roots = .ok paths)
    (hpool : host.poolError options.jobs = none) :
    run host options fs roots = ((processFiles host options fs paths).1,
      .ok (.ofReports (processFiles host options fs paths).2)) := by
  rw [run, h]
  dsimp only
  rw [hpool]

end Runs

/-- What a run may end in if its workers take their steps in any order. -/
inductive Scheduled (host : Host) (options : Options) (fs : FileSystem) (roots : List Path) :
    FileSystem × Except RunError Summary → Prop
  | refused {e : PathError} (h : Discovery.discover fs options.extensions roots = .error e) :
      Scheduled host options fs roots (fs, .error (.path e))
  | unmanned {paths : List Path} {reason : String}
      (h : Discovery.discover fs options.extensions roots = .ok paths)
      (hpool : host.poolError options.jobs = some reason) :
      Scheduled host options fs roots (fs, .error (.pool reason))
  | completed {paths : List Path} {last : FileSystem} {reports : List Report}
      (h : Discovery.discover fs options.extensions roots = .ok paths)
      (hpool : host.poolError options.jobs = none)
      (hs : ReflTransGen (Pool.Step host options) (.start fs paths) (.done last reports)) :
      Scheduled host options fs roots (last, .ok (Summary.ofReports reports))

section Schedules

variable {host : Host} {options : Options} {fs : FileSystem} {roots : List Path}

/-- Working on one file after the other is one of the schedules. -/
theorem scheduled_run (host : Host) (options : Options) (fs : FileSystem) (roots : List Path) :
    Scheduled host options fs roots (run host options fs roots) := by
  cases hfiles : Discovery.discover fs options.extensions roots with
  | error e =>
    rw [run_of_error hfiles]
    exact .refused hfiles
  | ok paths =>
    cases hpool : host.poolError options.jobs with
    | some reason =>
      rw [run_of_poolError hfiles hpool]
      exact .unmanned hfiles hpool
    | none =>
      rw [run_of_ok hfiles hpool]
      exact .completed hfiles hpool (Pool.reaches_processFiles host options fs [] paths)

/-- If no two of the files found are one, a run ends in the same file system and the same summary whatever
the order in which its workers read and write. -/
theorem scheduled_iff_run
    (h : ∀ paths, Discovery.discover fs options.extensions roots = .ok paths → fs.Separate paths)
    (result : FileSystem × Except RunError Summary) :
    Scheduled host options fs roots result ↔ result = run host options fs roots := by
  constructor
  · intro hresult
    cases hresult with
    | refused hfiles => rw [run_of_error hfiles]
    | unmanned hfiles hpool => rw [run_of_poolError hfiles hpool]
    | completed hfiles hpool hs =>
      -- both schedules end in what the file system at the start asks for
      obtain ⟨rfl, rfl⟩ := Pool.eq_of_reaches_done (h _ hfiles) hs
      rw [run_of_ok hfiles hpool, Pool.processFiles_of_separate host options (h _ hfiles)]
  · rintro rfl
    exact scheduled_run host options fs roots

end Schedules

/-! ### Two files -/

namespace Paired

def a : Path := Bytes.ofString "src/A.tsx"

def b : Path := Bytes.ofString "src/B.tsx"

/-- The directory `src` with a file and a link to a file elsewhere. -/
def files : FileSystem :=
  let name := Bytes.ofString
  ⟨[([name "src"], .directory),
    ([name "src", name "A.tsx"], .file 0o644 (Text.encode single.text)),
    ([name "src", name "B.tsx"], .link (name "../lib/B.tsx")),
    ([name "lib"], .directory),
    ([name "lib", name "B.tsx"], .file 0o600 (Text.encode single.text))], []⟩

/-- What `single` is converted to. -/
def converted : Text := "const X = (p: P) => p".toList

/-- A parser that knows one text: for any other it gives a tree with a fault. -/
def parser : Parser := fun _ t =>
  if t = single.text then single.tree else faulty

def host : Host where
  parse := parser
  staging := .usual
  poolError _ := none

def options : Options where
  dryRun := false
  keepOutput := true
  parser := .auto
  extensions := ["tsx"]
  jobs := some 2

def roots : List Path := [Bytes.ofString "src"]

theorem discover_eq : Discovery.discover files options.extensions roots = .ok [a, b] := by
  cbv

theorem transform_single : transform single.text single.tree = .ok (some converted) := by
  cbv

theorem parse_single (dialect : Dialect) : host.parse dialect single.text = single.tree := by
  show parser dialect single.text = single.tree
  exact if_pos rfl

/-- A file that holds `single` is to be converted, wherever it is. -/
theorem due_of_single {options : Options} {fs : FileSystem} {path : Path} {loc : Location} {mode : Nat}
    (hp : fs.resolve path = .ok loc) (hreads : ownerReads mode = true)
    (hget : fs.get? loc = some (.file mode (Text.encode single.text))) :
    Due host.parse options fs path loc mode converted :=
  ⟨hp, hreads, _, _, hget, Text.decode?_encode single.text, by rw [parse_single, transform_single]⟩

theorem due_a : Due host.parse options files a [Bytes.ofString "src", Bytes.ofString "A.tsx"] 0o644
    converted :=
  due_of_single (by cbv) rfl rfl

theorem due_b : Due host.parse options files b [Bytes.ofString "lib", Bytes.ofString "B.tsx"] 0o600
    converted :=
  due_of_single (by cbv) rfl rfl

theorem separate : files.Separate [a, b] := by
  rw [Separate, List.pairwise_pair]
  rintro ⟨loc, mode, contents, ha, hb, -⟩
  have hloc := (Except.ok.inj (due_a.resolves.symm.trans ha)).trans
    (Except.ok.inj (due_b.resolves.symm.trans hb)).symm
  exact absurd hloc (by decide)

theorem separate_discovered (paths : List Path)
    (h : Discovery.discover files options.extensions roots = .ok paths) : files.Separate paths := by
  rw [← Except.ok.inj (discover_eq.symm.trans h)]
  exact separate

/-- Both files are read before one is written, and the second one is written first. -/
theorem scheduled_out_of_order :
    files.Separate [a, b] ∧ ∃ middle last first second,
      ReflTransGen (Pool.Step host options) (.start files [a, b])
        ⟨files, [.writing a converted, .writing b converted]⟩ ∧
      Pool.Step host options ⟨files, [.writing a converted, .writing b converted]⟩
        ⟨middle, [.writing a converted, .finished second]⟩ ∧
      Pool.Step host options ⟨middle, [.writing a converted, .finished second]⟩
        (.done last [first, second]) ∧
      (last, .ok (Summary.ofReports [first, second])) = run host options files roots := by
  have hboth : ReflTransGen (Pool.Step host options) (.start files [a, b])
      ⟨files, [.writing a converted, .writing b converted]⟩ :=
    (ReflTransGen.single (Pool.step_of_due rfl due_a [] [.waiting b])).tail
      (Pool.step_of_due rfl due_b [.writing a converted] [])
  have hsecond : Pool.Step host options _ _ := .write files [.writing a converted] b converted []
  have hfirst : Pool.Step host options _ _ := .write
    ((Plan.write converted).carryOut .usual options b files).1 [] a converted
    [.finished ((Plan.write converted).carryOut .usual options b files).2]
  refine ⟨separate, _, _, _, _, hboth, hsecond, hfirst, ?_⟩
  exact (scheduled_iff_run separate_discovered _).1
    (.completed discover_eq rfl ((hboth.tail hsecond).tail hfirst))

end Paired

end PlainComponents
