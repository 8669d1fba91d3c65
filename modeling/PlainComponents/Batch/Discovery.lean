import PlainComponents.Batch.FileSystem
import PlainComponents.Log.Event

/-!
# Finding files

The files of a run are those given by path and, for every directory given, the files below it
that have one of the wanted extensions.  Directories that are hidden or called `node_modules`
are passed over, unless given by path.  Links are followed; a link that leads nowhere, or back
to a directory on the way to it, is left out.

* `walk` visits what is below a directory.  It ends: going down a link reaches a directory that
  is not yet on the way, and going down otherwise makes the location longer;
* `discover` gives the files of a list of paths, in order and each once.
-/

namespace PlainComponents

/-- A path that cannot be worked on. -/
structure PathError where
  path : Path
  error : FileError
  deriving DecidableEq

def PathError.message (e : PathError) : String :=
  Path.display e.path ++ ": " ++ e.error.message

namespace Discovery

/-! ### One entry -/

/-- A directory on the way down, with the path that led to it. -/
structure Level where
  location : Location
  path : Path
  deriving DecidableEq

/-- Why an entry is left out. -/
inductive Problem where
  | unreadable (path : Path) (error : FileError)
  /-- The link at `path` leads back to the directory reached by `ancestor`. -/
  | loop (path ancestor : Path)
  deriving DecidableEq

def Problem.message : Problem → String
  | unreadable path error =>
    "IO error for operation on " ++ Path.display path ++ ": " ++ error.message
  | loop path ancestor =>
    "File system loop found: " ++ Path.display path ++ " points to an ancestor "
      ++ Path.display ancestor

/-- What an entry of a directory is, once links are followed. -/
inductive Found where
  | file
  | directory (location : Location)
  | passedOver
  | problem (problem : Problem)
  deriving DecidableEq

/-- Hidden directories and `node_modules` are passed over. -/
def isPassedOver (n : Name) : Bool :=
  n = Bytes.ofString "node_modules" || n.head? = some Path.dot

/-- A directory called `n`, to be entered unless it is passed over. -/
def enter (n : Name) (location : Location) : Found :=
  if isPassedOver n then .passedOver else .directory location

/-- The link `n` at `path`, where `above` holds the directories on the way to it. -/
def lookThrough (fs : FileSystem) (above : List Level) (path : Path) (n : Name) : Found :=
  match fs.resolve path with
  | .error e => .problem (.unreadable path e)
  | .ok target =>
    match fs.get? target with
    | some (.file ..) => .file
    | some .directory =>
      match above.find? fun l => l.location = target with
      | some level => .problem (.loop path level.path)
      | none => enter n target
    | _ => .passedOver

/-- The entry `n` of the directory `here`; `above` holds `here` and the directories on the way to
it, the nearest first. -/
def look (fs : FileSystem) (above : List Level) (here : Level) (n : Name) : Found :=
  match fs.get? (here.location ++ [n]) with
  | none => .passedOver
  | some (.file ..) => .file
  | some .directory => enter n (here.location ++ [n])
  | some (.link _) => lookThrough fs above (Path.join here.path n) n

/-! ### The walk -/

/-- The number of directories that are not on the way. -/
def unvisited (fs : FileSystem) (above : List Level) : Nat :=
  (fs.directories.filter fun d => d ∉ above.map Level.location).length

theorem mem_directories {fs : FileSystem} {loc : Location} (h : fs.get? loc = some .directory) :
    loc ∈ fs.directories := by
  cases loc with
  | nil => simp [FileSystem.directories]
  | cons a loc =>
    simp only [FileSystem.get?, Option.map_eq_some_iff] at h
    obtain ⟨e, he, hd⟩ := h
    have hm := List.mem_of_find?_eq_some he
    have hl := List.find?_some he
    simp only [decide_eq_true_eq] at hl
    refine List.mem_cons_of_mem _ (List.mem_map.2 ⟨e, ?_, hl⟩)
    exact List.mem_filter.2 ⟨hm, by simpa using hd⟩

theorem length_le_depth {fs : FileSystem} {loc : Location} (h : loc ∈ fs.directories) :
    loc.length ≤ fs.depth := by
  rcases List.mem_cons.1 h with rfl | h
  · exact Nat.zero_le _
  · obtain ⟨e, he, rfl⟩ := List.mem_map.1 h
    exact List.le_max?_getD_of_mem (List.mem_map.2 ⟨e, (List.mem_filter.1 he).1, rfl⟩)

theorem filter_length_lt {α : Type} {p q : α → Bool} {xs : List α}
    (hpq : ∀ x ∈ xs, p x = true → q x = true) {y : α} (hy : y ∈ xs) (hq : q y = true)
    (hp : p y = false) : (xs.filter p).length < (xs.filter q).length := by
  induction xs with
  | nil => cases hy
  | cons x xs ih =>
    have hle : (xs.filter p).length ≤ (xs.filter q).length := by
      rw [← List.countP_eq_length_filter, ← List.countP_eq_length_filter]
      exact List.countP_mono_left fun z hz => hpq z (List.mem_cons_of_mem _ hz)
    rcases List.mem_cons.1 hy with rfl | hy
    · simp only [List.filter_cons, hp, hq, ↓reduceIte, List.length_cons]
      exact Nat.lt_succ_of_le hle
    · have := ih (fun z hz => hpq z (List.mem_cons_of_mem _ hz)) hy
      by_cases hx : p x = true
      · simp only [List.filter_cons, hx, hpq x List.mem_cons_self hx, ↓reduceIte, List.length_cons]
        omega
      · simp only [List.filter_cons, hx, Bool.false_eq_true, ↓reduceIte]
        split
        · exact Nat.lt_succ_of_lt this
        · exact this

theorem unvisited_cons_le (fs : FileSystem) (above : List Level) (l : Level) :
    unvisited fs (l :: above) ≤ unvisited fs above := by
  unfold unvisited
  rw [← List.countP_eq_length_filter, ← List.countP_eq_length_filter]
  refine List.countP_mono_left fun d _ hd => ?_
  simp_all

theorem unvisited_cons_lt {fs : FileSystem} {above : List Level} {l : Level}
    (hd : l.location ∈ fs.directories) (hn : l.location ∉ above.map Level.location) :
    unvisited fs (l :: above) < unvisited fs above := by
  refine filter_length_lt (fun d _ h => ?_) hd (by simpa using hn) (by simp)
  simp_all

theorem eq_of_enter {n : Name} {location loc : Location} (h : enter n location = .directory loc) :
    location = loc := by
  unfold enter at h
  split at h
  · cases h
  · exact Found.directory.inj h

/-- A link is followed only to a directory that is not on the way. -/
theorem lookThrough_directory {fs : FileSystem} {above : List Level} {path : Path} {n : Name}
    {loc : Location} (h : lookThrough fs above path n = .directory loc) :
    loc ∈ fs.directories ∧ loc ∉ above.map Level.location := by
  unfold lookThrough at h
  split at h
  · cases h
  · split at h
    · cases h
    · next hg =>
      split at h
      · cases h
      · next hf =>
        obtain rfl := eq_of_enter h
        exact ⟨mem_directories hg, by simpa using hf⟩
    · cases h

/-- A directory found is either right below, and one level deeper, or was not on the way yet. -/
theorem look_directory {fs : FileSystem} {above : List Level} {here : Level} {n : Name}
    {loc : Location} (h : look fs above here n = .directory loc) :
    loc ∈ fs.directories ∧ (loc = here.location ++ [n] ∨ loc ∉ above.map Level.location) := by
  unfold look at h
  split at h
  · cases h
  · cases h
  · next hg =>
    obtain rfl := eq_of_enter h
    exact ⟨mem_directories hg, .inl rfl⟩
  · obtain ⟨hd, hn⟩ := lookThrough_directory h
    exact ⟨hd, .inr hn⟩

/-- Something met on a walk. -/
inductive Visit where
  | file (path : Path)
  | problem (problem : Problem)
  deriving DecidableEq

/-- Going down to a directory that was found makes progress. -/
theorem look_decreases {fs : FileSystem} {above : List Level} {here : Level} {n : Name}
    {loc : Location} {path : Path} (h : look fs above here n = .directory loc) :
    Prod.Lex (· < ·) (· < ·)
      (unvisited fs (⟨loc, path⟩ :: above), fs.depth - loc.length)
      (unvisited fs above, fs.depth - here.location.length) := by
  obtain ⟨hd, h | h⟩ := look_directory h
  · have hle := unvisited_cons_le fs above ⟨loc, path⟩
    have hlen := length_le_depth hd
    subst h
    rw [List.length_append, List.length_singleton] at hlen ⊢
    rcases Nat.lt_or_eq_of_le hle with hlt | heq
    · exact .left _ _ hlt
    · rw [heq]
      exact .right _ (by omega)
  · exact .left _ _ (unvisited_cons_lt hd h)

/-- Everything below the directory `here`, in the order of the names. -/
def walk (fs : FileSystem) (above : List Level) (here : Level) : List Visit :=
  (fs.names here.location).flatMap fun n =>
    let path := Path.join here.path n
    match _h : look fs above here n with
    | .file => [.file path]
    | .directory loc => walk fs (⟨loc, path⟩ :: above) ⟨loc, path⟩
    | .passedOver => []
    | .problem p => [.problem p]
termination_by (unvisited fs above, fs.depth - here.location.length)
decreasing_by exact look_decreases _h

/-- What is below a directory, entry by entry. -/
theorem walk_eq (fs : FileSystem) (above : List Level) (here : Level) :
    walk fs above here = (fs.names here.location).flatMap fun n =>
      match look fs above here n with
      | .file => [.file (Path.join here.path n)]
      | .directory loc =>
        walk fs (⟨loc, Path.join here.path n⟩ :: above) ⟨loc, Path.join here.path n⟩
      | .passedOver => []
      | .problem p => [.problem p] := by
  rw [walk]
  congr
  funext n
  cases look fs above here n <;> rfl

/-- Everything below a directory that is given by path. -/
def walkFrom (fs : FileSystem) (root : Path) (location : Location) : List Visit :=
  walk fs [⟨location, root⟩] ⟨location, root⟩

/-! ### The files of a run -/

/-- The file that is met, if it has a wanted extension. -/
def Visit.wanted? (extensions : List String) : Visit → Option Path
  | file path => if Path.hasExtension path extensions then some path else none
  | problem _ => none

/-- The files that a path stands for. -/
def filesOf (fs : FileSystem) (extensions : List String) (root : Path) :
    Except PathError (List Path) :=
  match fs.resolve root with
  | .error e => .error ⟨root, e⟩
  | .ok location =>
    match fs.get? location with
    | some .directory => .ok ((walkFrom fs root location).filterMap (Visit.wanted? extensions))
    | _ => .ok [root]

/-- The files of a run, in order and each once. -/
def discover (fs : FileSystem) (extensions : List String) (roots : List Path) :
    Except PathError (List Path) := do
  let files ← roots.mapM (filesOf fs extensions)
  return Path.arrange files.flatten

/-! ### What is logged -/

/-- The entries left out below a path. -/
def problemsOf (fs : FileSystem) (root : Path) (location : Location) : List Log.Event :=
  (walkFrom fs root location).filterMap fun
    | .file _ => none
    | .problem p => some
      { level := .warn
        target := "defc::discover"
        message := "skipping unreadable entry"
        fields := [("root", .text (Path.display root)), ("error", .text p.message)] }

/-- The entries left out below the paths, up to the first path that leads nowhere. -/
def events (fs : FileSystem) : List Path → List Log.Event
  | [] => []
  | root :: roots =>
    match fs.resolve root with
    | .error _ => []
    | .ok location =>
      match fs.get? location with
      | some .directory => problemsOf fs root location ++ events fs roots
      | _ => events fs roots

end Discovery

end PlainComponents
