import PlainComponents.Batch.Run
import PlainComponents.Proofs.Batch.Contents

/-!
# What a plan sees and does

Work on a file starts with a plan.  The plan depends on the file system only through the place that the
path leads to and what is there (`Plan.ofFile_eq_of_agree`).  A file that could be read can also be
written, unless it is in a locked directory, so the report is known as soon as the plan is:
`Plan.forecast`.

* `Due` says what must have been found for a file to be written, and `due?` gives the write;
* `Plan.carryOut_of_not_pending`, `Plan.carryOut_of_obstacle` and `Plan.carryOut_write` say that carrying a
  plan out gives the forecast, and changes at most the file that the path leads to;
* `processFiles_of_not_pending` says that files for which there is nothing to write are left alone.
-/

namespace PlainComponents

namespace FileSystem

variable {fs gs : FileSystem} {p q : Path}

/-- The path leads to the same place in both file systems, and the same is there. -/
def Agree (fs gs : FileSystem) (p : Path) : Prop :=
  gs.resolve p = fs.resolve p ∧ ∀ loc, fs.resolve p = .ok loc → gs.get? loc = fs.get? loc

/-- Both paths lead to one file. -/
def SameFile (fs : FileSystem) (p q : Path) : Prop :=
  ∃ loc mode contents, fs.resolve p = .ok loc ∧ fs.resolve q = .ok loc ∧
    fs.get? loc = some (.file mode contents)

theorem readText_eq_of_agree (h : Agree fs gs p) : gs.readText p = fs.readText p := by
  obtain ⟨hresolve, hget⟩ := h
  have hlookup : gs.lookup p = fs.lookup p := by
    unfold lookup
    rw [hresolve]
    cases hp : fs.resolve p with
    | error e => rfl
    | ok loc => simp only [bind, Except.bind, hget loc hp]
  rw [readText, readText, read, read, hlookup]

/-- A text is read from a file that may be read and decodes. -/
theorem readText_eq_ok_iff {src : Text} : fs.readText p = .ok src ↔
    ∃ loc mode old, fs.resolve p = .ok loc ∧ ownerReads mode = true ∧
      fs.get? loc = some (.file mode old) ∧ Text.decode? old = some src := by
  unfold readText read lookup
  constructor
  · intro h
    cases hp : fs.resolve p with
    | error e => rw [hp] at h; cases h
    | ok loc =>
      rcases hget : fs.get? loc with - | (⟨mode, old⟩ | - | target)
      · simp [hp, hget, bind, Except.bind] at h
      · cases hreads : ownerReads mode with
        | false => simp [hp, hget, hreads, bind, Except.bind] at h
        | true =>
          cases hold : Text.decode? old with
          | none => simp [hp, hget, hreads, hold, bind, Except.bind] at h
          | some t =>
            have ht : t = src := by simpa [hp, hget, hreads, hold, bind, Except.bind] using h
            exact ⟨loc, mode, old, rfl, hreads, hget, by rw [hold, ht]⟩
      · simp [hp, hget, bind, Except.bind] at h
      · simp [hp, hget, bind, Except.bind] at h
  · rintro ⟨loc, mode, old, hp, hreads, hget, hold⟩
    simp [hp, hget, hreads, hold, bind, Except.bind]

end FileSystem

open FileSystem

variable {parse : Parser} {staging : Staging} {host : Host} {options : Options}
  {fs gs : FileSystem} {path : Path} {loc : Location} {mode : Nat} {text : Text} {plan : Plan}
  {e : FileError}

/-! ### Plans -/

/-- The file at `loc`, to which the path leads, is to hold `text` instead of what it holds. -/
structure Due (parse : Parser) (options : Options) (fs : FileSystem) (path : Path) (loc : Location)
    (mode : Nat) (text : Text) : Prop where
  resolves : fs.resolve path = .ok loc
  reads : ownerReads mode = true
  converts : ∃ old src, fs.get? loc = some (.file mode old) ∧ Text.decode? old = some src ∧
    transform src (parse (options.parser.dialectOf path) src) = .ok (some text)

theorem Plan.ofFile_eq_of_agree (h : Agree fs gs path) :
    Plan.ofFile parse options gs path = Plan.ofFile parse options fs path := by
  rw [ofFile, ofFile, readText_eq_of_agree h]

theorem Plan.ofSource_eq_write_iff {tree : Tree} {src : Text} :
    Plan.ofSource tree src = .write text ↔ transform src tree = .ok (some text) := by
  unfold ofSource
  rcases transform src tree with failure | (- | out) <;> simp

theorem Plan.ofFile_eq_write_iff :
    Plan.ofFile parse options fs path = .write text ↔
      ∃ loc mode, Due parse options fs path loc mode text := by
  unfold ofFile
  constructor
  · intro h
    cases hread : fs.readText path with
    | error e => rw [hread] at h; cases h
    | ok src =>
      rw [hread] at h
      obtain ⟨loc, mode, old, hp, hreads, hget, hold⟩ := readText_eq_ok_iff.1 hread
      exact ⟨loc, mode, hp, hreads, old, src, hget, hold, ofSource_eq_write_iff.1 h⟩
  · rintro ⟨loc, mode, hp, hreads, old, src, hget, hold, h⟩
    rw [readText_eq_ok_iff.2 ⟨loc, mode, old, hp, hreads, hget, hold⟩]
    exact ofSource_eq_write_iff.2 h

/-! ### Forecasts -/

/-- What keeps a run that is not dry from writing the file that a path leads to. -/
def hindrance? (staging : Staging) (options : Options) (fs : FileSystem) (path : Path) :
    Option FileError :=
  match options.dryRun, fs.resolve path with
  | false, .ok loc => fs.obstacle? staging loc
  | _, _ => none

theorem hindrance?_of_dry (h : options.dryRun = true) : hindrance? staging options fs path = none := by
  rw [hindrance?, h]

theorem hindrance?_of_resolve (hdry : options.dryRun = false) (hp : fs.resolve path = .ok loc) :
    hindrance? staging options fs path = fs.obstacle? staging loc := by
  rw [hindrance?, hdry, hp]

theorem hindrance?_eq_of_skeleton (h : gs.skeleton = fs.skeleton) :
    hindrance? staging options gs path = hindrance? staging options fs path := by
  simp only [hindrance?, resolve_eq_of_skeleton h, obstacle?_eq_of_skeleton h]

/-- The report that a plan leads to. -/
def Plan.forecast (staging : Staging) (options : Options) (fs : FileSystem) (path : Path) :
    Plan → Report
  | unreadable e => ⟨path, .failed e.message, none⟩
  | refuse failure => ⟨path, .failed failure.message, none⟩
  | leave => ⟨path, .unmodified, none⟩
  | write text =>
    match hindrance? staging options fs path with
    | some e => ⟨path, .failed e.message, none⟩
    | none => ⟨path, .modified, if options.keepOutput then some text else none⟩

theorem Plan.forecast_of_hindrance (h : hindrance? staging options fs path = some e) :
    (Plan.write text).forecast staging options fs path = ⟨path, .failed e.message, none⟩ := by
  rw [forecast, h]

theorem Plan.forecast_write (h : hindrance? staging options fs path = none) :
    (Plan.write text).forecast staging options fs path =
      ⟨path, .modified, if options.keepOutput then some text else none⟩ := by
  rw [forecast, h]

@[simp] theorem Plan.path_forecast (plan : Plan) :
    (plan.forecast staging options fs path).path = path := by
  cases plan with
  | write text =>
    rw [forecast]
    split <;> rfl
  | _ => rfl

/-- Writing files does not change what is forecast. -/
theorem Plan.forecast_eq_of_skeleton (h : gs.skeleton = fs.skeleton) (plan : Plan) :
    plan.forecast staging options gs path = plan.forecast staging options fs path := by
  cases plan with
  | write text => rw [forecast, forecast, hindrance?_eq_of_skeleton h]
  | _ => rfl

/-- The report that the file system asks for. -/
def foreseen (host : Host) (options : Options) (fs : FileSystem) (path : Path) : Report :=
  (Plan.ofFile host.parse options fs path).forecast host.staging options fs path

@[simp] theorem path_foreseen : (foreseen host options fs path).path = path :=
  Plan.path_forecast _

theorem hindrance?_eq_none_iff (hp : fs.resolve path = .ok loc) :
    hindrance? staging options fs path = none ↔ options.dryRun = true ∨ fs.Replaceable loc := by
  cases hdry : options.dryRun with
  | true => simp [hindrance?_of_dry hdry]
  | false => simp [hindrance?_of_resolve hdry hp, obstacle?_eq_none_iff]

/-- What is foreseen for a file that is to be written and can be. -/
theorem foreseen_of_due (h : Due host.parse options fs path loc mode text)
    (hfree : options.dryRun = true ∨ fs.Replaceable loc) : foreseen host options fs path =
      ⟨path, .modified, if options.keepOutput then some text else none⟩ := by
  have hunhindered : hindrance? host.staging options fs path = none :=
    (hindrance?_eq_none_iff h.resolves).2 hfree
  rw [foreseen, Plan.ofFile_eq_write_iff.2 ⟨loc, mode, h⟩, Plan.forecast_write hunhindered]

/-- What is foreseen for a file that is to be written and cannot be. -/
theorem foreseen_of_locked (hdry : options.dryRun = false)
    (h : Due host.parse options fs path loc mode text) (hlocked : ¬ fs.Replaceable loc) :
    foreseen host options fs path =
      ⟨path, .failed (host.staging.complaint (fs.temporary host.staging loc)), none⟩ := by
  have hhindrance : hindrance? host.staging options fs path = _ :=
    (hindrance?_of_resolve hdry h.resolves).trans (obstacle?_of_locked hlocked host.staging)
  rw [foreseen, Plan.ofFile_eq_write_iff.2 ⟨loc, mode, h⟩, Plan.forecast_of_hindrance hhindrance,
    FileError.message]

/-- A file is reported as modified exactly if there is something to write and, in a run that is not dry,
nothing keeps it from being written. -/
theorem modified_foreseen_iff : (foreseen host options fs path).outcome = .modified ↔
    ∃ loc mode text, Due host.parse options fs path loc mode text ∧
      (options.dryRun = true ∨ fs.Replaceable loc) := by
  constructor
  · intro h
    unfold foreseen at h
    cases hplan : Plan.ofFile host.parse options fs path with
    | write text =>
      obtain ⟨loc, mode, hdue⟩ := Plan.ofFile_eq_write_iff.1 hplan
      cases hhindrance : hindrance? host.staging options fs path with
      | none => exact ⟨loc, mode, text, hdue, (hindrance?_eq_none_iff hdue.resolves).1 hhindrance⟩
      | some e =>
        rw [hplan, Plan.forecast_of_hindrance hhindrance] at h
        cases h
    | _ => simp [hplan, Plan.forecast] at h
  · rintro ⟨loc, mode, text, hdue, hfree⟩
    rw [foreseen_of_due hdue hfree]

/-! ### Carrying plans out -/

/-- The text that a plan still has to write. -/
def Plan.pending? (options : Options) : Plan → Option Text
  | write text => if options.dryRun then none else some text
  | _ => none

theorem Plan.pending?_eq_some_iff :
    plan.pending? options = some text ↔ plan = .write text ∧ options.dryRun = false := by
  cases plan <;> simp [pending?, and_comm]

/-- A plan with nothing to write leaves the file system alone. -/
theorem Plan.carryOut_of_not_pending (h : plan.pending? options = none) (fs : FileSystem) :
    plan.carryOut staging options path fs = (fs, plan.forecast staging options fs path) := by
  cases plan with
  | write text =>
    have hdry : options.dryRun = true := by simpa [pending?] using h
    rw [forecast_write (hindrance?_of_dry hdry)]
    simp [carryOut, hdry]
  | _ => rfl

/-- If nothing is to be written for any of the files, working on them leaves the file system alone. -/
theorem processFiles_of_not_pending {paths : List Path}
    (h : ∀ path ∈ paths, (Plan.ofFile host.parse options fs path).pending? options = none) :
    processFiles host options fs paths = (fs, paths.map (foreseen host options fs)) := by
  induction paths with
  | nil => rfl
  | cons path paths ih =>
    rw [List.forall_mem_cons] at h
    have hfirst : processFile host options fs path = (fs, _) := Plan.carryOut_of_not_pending h.1 fs
    rw [processFiles, hfirst]
    dsimp only
    rw [ih h.2]
    rfl

/-- Nothing is written in a locked directory. -/
theorem Plan.carryOut_of_obstacle (hdry : options.dryRun = false) (hp : fs.resolve path = .ok loc)
    (he : fs.obstacle? staging loc = some e) :
    (Plan.write text).carryOut staging options path fs =
      (fs, (Plan.write text).forecast staging options fs path) := by
  have hreplace := replace_eq hp staging (Text.encode text)
  rw [he] at hreplace
  rw [forecast_of_hindrance ((hindrance?_of_resolve hdry hp).trans he)]
  simp [carryOut, hdry, hreplace]

/-- A file that is there can be written, if its directory is not locked. -/
theorem Plan.carryOut_write {old : Bytes} (hdry : options.dryRun = false)
    (hp : fs.resolve path = .ok loc) (hget : fs.get? loc = some (.file mode old))
    (hfree : fs.Replaceable loc) :
    (Plan.write text).carryOut staging options path fs =
      (fs.set loc (.file mode (Text.encode text)),
        (Plan.write text).forecast staging options fs path) := by
  have hmode : fs.modeAt loc = mode := by rw [modeAt, hget]
  have hnone : fs.obstacle? staging loc = none := obstacle?_eq_none_iff.2 hfree
  have hreplace := replace_eq hp staging (Text.encode text)
  rw [hnone] at hreplace
  dsimp only at hreplace
  rw [if_neg (by simp [hget]), hmode] at hreplace
  rw [forecast_write ((hindrance?_of_resolve hdry hp).trans hnone)]
  simp [carryOut, hdry, hreplace]

/-! ### What is due -/

/-- The write that a path asks for, in a run that is not dry. -/
def due? (parse : Parser) (options : Options) (fs : FileSystem) (path : Path) :
    Option (Location × Entry) :=
  match (Plan.ofFile parse options fs path).pending? options, fs.resolve path with
  | some text, .ok loc =>
    if fs.isLocked loc.dropLast then none
    else some (loc, .file (fs.modeAt loc) (Text.encode text))
  | _, _ => none

theorem due?_eq_none (h : (Plan.ofFile parse options fs path).pending? options = none) :
    due? parse options fs path = none := by
  rw [due?, h]

/-- Nothing is due in a locked directory. -/
theorem due?_of_locked (hp : fs.resolve path = .ok loc) (h : ¬ fs.Replaceable loc) :
    due? parse options fs path = none := by
  rw [due?, hp]
  cases (Plan.ofFile parse options fs path).pending? options with
  | none => rfl
  | some text => exact if_pos (not_not.1 h)

theorem due?_of_due (hdry : options.dryRun = false) (h : Due parse options fs path loc mode text)
    (hfree : fs.Replaceable loc) :
    due? parse options fs path = some (loc, .file mode (Text.encode text)) := by
  have hplan := Plan.ofFile_eq_write_iff.2 ⟨loc, mode, h⟩
  obtain ⟨hp, -, old, src, hget, -⟩ := h
  have hmode : fs.modeAt loc = mode := by rw [modeAt, hget]
  rw [due?, Plan.pending?_eq_some_iff.2 ⟨hplan, hdry⟩, hp]
  exact (if_neg hfree).trans (by rw [hmode])

theorem exists_due_of_due? {w : Location × Entry} (h : due? parse options fs path = some w) :
    ∃ loc mode text, Due parse options fs path loc mode text ∧ fs.Replaceable loc ∧
      w = (loc, .file mode (Text.encode text)) := by
  cases hpending : (Plan.ofFile parse options fs path).pending? options with
  | none => cases (due?_eq_none hpending).symm.trans h
  | some text =>
    obtain ⟨hplan, hdry⟩ := Plan.pending?_eq_some_iff.1 hpending
    obtain ⟨loc, mode, hdue⟩ := Plan.ofFile_eq_write_iff.1 hplan
    have hfree : fs.Replaceable loc := by
      by_contra hlocked
      cases (due?_of_locked hdue.resolves hlocked).symm.trans h
    exact ⟨loc, mode, text, hdue, hfree, Option.some.inj (h.symm.trans (due?_of_due hdry hdue hfree))⟩

/-- What is due for paths to different files concerns different locations. -/
theorem ne_of_not_sameFile {q : Path} {w : Location × Entry}
    (h : ¬ fs.SameFile path q) (hdue : Due parse options fs path loc mode text)
    (hw : due? parse options fs q = some w) : w.1 ≠ loc := by
  obtain ⟨l, m, t, hq, -, rfl⟩ := exists_due_of_due? hw
  rintro rfl
  obtain ⟨hp, -, old, src, hget, -⟩ := hdue
  exact h ⟨_, mode, old, hp, hq.resolves, hget⟩

end PlainComponents
