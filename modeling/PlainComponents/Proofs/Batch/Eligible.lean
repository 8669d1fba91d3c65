import Mathlib
import PlainComponents.Proofs.Batch.Arrangement
import PlainComponents.Proofs.Batch.Naming

/-!
# Eligible files

Which files a run works on, said without a walk: the files that are given by path, and those below a given
directory that are reached through directories that may be entered (`Eligible`).  Everything here is about where
paths lead.  That a directory on the way is met again is said by comparing where two paths lead, and
not by a list of directories that were visited.

The walk keeps such a list, and looks at one entry of one directory at a time.  The step is that what it
makes of an entry is decided by where the path of the entry leads (`look_eq_file_iff`,
`look_eq_directory_iff`); `OnWay` says which directories are in the list.  By induction along the
recursion of the walk, the files it meets are those that are eligible below its root: `mem_walk_iff`.
-/

namespace PlainComponents

/-! ### Paths below a root -/

namespace Path

variable {p : Path} {n : Name}

/-- The path of what the names lead to, one after the other. -/
def below (root : Path) (names : List Name) : Path :=
  names.foldl join root

theorem below_concat (root : Path) (names : List Name) (n : Name) :
    root.below (names ++ [n]) = (root.below names).join n :=
  List.foldl_concat ..

/-- The extension of a path is that of the last name. -/
theorem extension?_join (hn : n.Valid) : extension? (p.join n) = extensionOfName? n := by
  have hpart : Component.ofPart? n = some (.name n) := by
    simp [Component.ofPart?, hn.ne_nil, hn.ne_dot, hn.ne_dots]
  obtain ⟨q, hjoin⟩ : ∃ q, p.join n = q ++ slash :: n := by
    rcases join_cases p n with h | ⟨q, -, h⟩
    · exact ⟨p, h⟩
    · exact ⟨q, h⟩
  have hlast : (components (p.join n)).getLast? = some (.name n) := by
    rw [hjoin, components, Bytes.split_append, Bytes.split_of_not_mem hn.no_slash]
    simp [List.filterMap_append, hpart]
  rw [extension?, hlast]

theorem hasExtension_join {extensions : List String} (hn : n.Valid) :
    (p.join n).hasExtension extensions = true ↔
      ∃ s ∈ extensions, extensionOfName? n = some (Bytes.ofString s) := by
  rw [hasExtension, extension?_join hn]
  cases extensionOfName? n with
  | none => simp
  | some e =>
    simp only [Option.any_some, List.any_eq_true, decide_eq_true_eq, Option.some.injEq]
    simp only [eq_comm]

end Path

namespace FileSystem

variable {fs : FileSystem} {p : Path} {loc : Location} {n : Name}

/-- The path leads to a file. -/
def IsFile (fs : FileSystem) (p : Path) : Prop :=
  ∃ loc mode contents, fs.resolve p = .ok loc ∧ fs.get? loc = some (.file mode contents)

/-- The path leads to a directory. -/
def IsDirectory (fs : FileSystem) (p : Path) : Prop :=
  ∃ loc, fs.resolve p = .ok loc ∧ fs.get? loc = some .directory

/-- In the directory that the path leads to, `n` is a link. -/
def HasLink (fs : FileSystem) (p : Path) (n : Name) : Prop :=
  ∃ dir target, fs.resolve p = .ok dir ∧ fs.get? (dir ++ [n]) = some (.link target)

theorem isFile_iff (h : fs.resolve p = .ok loc) :
    fs.IsFile p ↔ ∃ mode contents, fs.get? loc = some (.file mode contents) := by
  simp [IsFile, h]

theorem isDirectory_iff (h : fs.resolve p = .ok loc) :
    fs.IsDirectory p ↔ fs.get? loc = some .directory := by
  simp [IsDirectory, h]

theorem hasLink_iff (h : fs.resolve p = .ok loc) :
    fs.HasLink p n ↔ ∃ target, fs.get? (loc ++ [n]) = some (.link target) := by
  simp [HasLink, h]

end FileSystem

namespace Discovery

variable {fs : FileSystem} {extensions : List String} {root p : Path} {above : List Level}
  {here : Level} {n : Name} {loc : Location} {before names : List Name}

/-! ### Eligibility -/

/-- From the directory at `before` below the root, the entry `n` may be entered.  If it is a link, it must not
lead back to that directory or to one above it. -/
structure Entered (fs : FileSystem) (root : Path) (before : List Name) (n : Name) : Prop where
  valid : n.Valid
  directory : fs.IsDirectory (root.below (before ++ [n]))
  ne_modules : n ≠ Bytes.ofString "node_modules"
  not_hidden : n.head? ≠ some Path.dot
  no_loop : fs.HasLink (root.below before) n → ∀ names, names <+: before →
    fs.resolve (root.below names) ≠ fs.resolve (root.below (before ++ [n]))

/-- From the directory at `before` below the root, the names lead down through entries that may be entered. -/
def Descends (fs : FileSystem) (root : Path) (before names : List Name) : Prop :=
  ∀ above n rest, names = above ++ n :: rest → Entered fs root (before ++ above) n

/-- The files of a run: those given by path, whatever they are called, and below a given directory those with a
wanted extension. -/
inductive Eligible (fs : FileSystem) (extensions : List String) (roots : List Path) : Path → Prop
  | given {root : Path} (hroot : root ∈ roots) (hfile : fs.IsFile root) :
      Eligible fs extensions roots root
  | found {root : Path} {names : List Name} {n : Name} (hroot : root ∈ roots)
      (hdir : fs.IsDirectory root) (hnames : Descends fs root [] names) (hn : n.Valid)
      (hfile : fs.IsFile (root.below (names ++ [n])))
      (hwanted : ∃ s ∈ extensions, Path.extensionOfName? n = some (Bytes.ofString s)) :
      Eligible fs extensions roots (root.below (names ++ [n]))

theorem descends_nil : Descends fs root before [] := by
  intro above n rest h
  simp at h

theorem descends_cons_iff : Descends fs root before (n :: names) ↔
    Entered fs root before n ∧ Descends fs root (before ++ [n]) names := by
  constructor
  · intro h
    constructor
    · simpa using h [] n names rfl
    · rintro above m rest rfl
      simpa using h (n :: above) m rest rfl
  · rintro ⟨hn, hnames⟩ above m rest heq
    cases above with
    | nil =>
      obtain ⟨rfl, rfl⟩ := List.cons.inj heq
      simpa using hn
    | cons a above =>
      obtain ⟨rfl, rfl⟩ := List.cons.inj heq
      simpa using hnames above m rest rfl

/-! ### One entry -/

theorem isPassedOver_eq_false_iff :
    isPassedOver n = false ↔ n ≠ Bytes.ofString "node_modules" ∧ n.head? ≠ some Path.dot := by
  simp [isPassedOver]

theorem enter_ne_file : enter n loc ≠ .file := by
  unfold enter
  split <;> simp

theorem enter_eq_directory_iff {l : Location} :
    enter n l = .directory loc ↔ isPassedOver n = false ∧ l = loc := by
  unfold enter
  split <;> simp_all

theorem lookThrough_eq_file_iff : lookThrough fs above p n = .file ↔ fs.IsFile p := by
  unfold lookThrough
  cases hp : fs.resolve p with
  | error e => simp [FileSystem.IsFile, hp]
  | ok loc =>
    rw [FileSystem.isFile_iff hp]
    rcases hloc : fs.get? loc with - | (⟨mode, c⟩ | - | target)
    · simp [hloc]
    · simp [hloc]
    · simp only [hloc]
      split
      · simp
      · simp [enter_ne_file]
    · simp [hloc]

theorem lookThrough_eq_directory_iff : lookThrough fs above p n = .directory loc ↔
    fs.resolve p = .ok loc ∧ fs.get? loc = some .directory ∧ isPassedOver n = false ∧
      loc ∉ above.map Level.location := by
  constructor
  · intro h
    have hnew := (lookThrough_directory h).2
    unfold lookThrough at h
    split at h
    · cases h
    next l hp =>
      split at h
      · cases h
      next hl =>
        split at h
        · cases h
        · obtain ⟨hn, rfl⟩ := enter_eq_directory_iff.1 h
          exact ⟨hp, hl, hn, hnew⟩
      · cases h
  · rintro ⟨hp, hloc, hn, hnew⟩
    have hfind : above.find? (fun l => l.location = loc) = none := by simpa using hnew
    unfold lookThrough
    simp only [hp, hloc, hfind]
    exact enter_eq_directory_iff.2 ⟨hn, rfl⟩

theorem mem_names_of_look {found : Found} (h : look fs above here n = found)
    (hfound : found ≠ .passedOver) : n ∈ fs.names here.location := by
  cases he : fs.get? (here.location ++ [n]) with
  | none =>
    simp only [look, he] at h
    exact absurd h.symm hfound
  | some entry =>
    exact FileSystem.mem_names_iff_listed.2 (FileSystem.listed_of_get? he (by simp))

section Step

variable (hpath : fs.resolve here.path = .ok here.location)
  (hdir : fs.get? here.location = some .directory) (hn : n.Valid)
include hpath hdir hn

/-- What is met as a file is what the path of the entry leads to as a file. -/
theorem look_eq_file_iff : look fs above here n = .file ↔ fs.IsFile (here.path.join n) := by
  by_cases hlink : ∃ target, fs.get? (here.location ++ [n]) = some (.link target)
  · obtain ⟨target, he⟩ := hlink
    simp only [look, he]
    exact lookThrough_eq_file_iff
  · have hplain := not_exists.1 hlink
    simp only [FileSystem.IsFile, FileSystem.resolve_join_eq_ok_iff hpath hdir hn hplain]
    rcases he : fs.get? (here.location ++ [n]) with - | (⟨mode, c⟩ | - | target)
    · simp [look, he]
    · simp [look, he]
    · simp [look, he, enter_ne_file]
    · exact absurd he (hplain target)

/-- A directory is gone down to if the path of the entry leads there, the name is not passed over, and it is not on
the way already.  The last is asked of links only: below a link that leads up, a directory can be met again. -/
theorem look_eq_directory_iff : look fs above here n = .directory loc ↔
    fs.resolve (here.path.join n) = .ok loc ∧ fs.get? loc = some .directory ∧ isPassedOver n = false ∧
      (fs.HasLink here.path n → loc ∉ above.map Level.location) := by
  rw [FileSystem.hasLink_iff hpath]
  by_cases hlink : ∃ target, fs.get? (here.location ++ [n]) = some (.link target)
  · rw [forall_prop_of_true hlink]
    obtain ⟨target, he⟩ := hlink
    simp only [look, he]
    exact lookThrough_eq_directory_iff
  · have hplain := not_exists.1 hlink
    rw [FileSystem.resolve_join_eq_ok_iff hpath hdir hn hplain]
    rcases he : fs.get? (here.location ++ [n]) with - | (⟨mode, c⟩ | - | target)
    · simp +contextual [look, he]
    · simp +contextual [look, he]
    · simp only [look, he, enter_eq_directory_iff]
      constructor
      · rintro ⟨hname, rfl⟩
        exact ⟨⟨rfl, _, he⟩, he, hname, by simp⟩
      · rintro ⟨⟨rfl, -⟩, -, hname, -⟩
        exact ⟨hname, rfl⟩
    · exact absurd he (hplain target)

end Step

/-! ### The walk -/

/-- The walk has come to `here`, at `before` below its root, and `above` holds the directories on the way. -/
structure OnWay (fs : FileSystem) (root : Path) (before : List Name) (above : List Level) (here : Level) :
    Prop where
  path : here.path = root.below before
  resolves : fs.resolve here.path = .ok here.location
  directory : fs.get? here.location = some .directory
  above_iff : ∀ loc, loc ∈ above.map Level.location ↔
    ∃ names, names <+: before ∧ fs.resolve (root.below names) = .ok loc

theorem onWay_root (h : fs.resolve root = .ok loc) (hdir : fs.get? loc = some .directory) :
    OnWay fs root [] [⟨loc, root⟩] ⟨loc, root⟩ where
  path := rfl
  resolves := h
  directory := hdir
  above_iff l := by
    simp [Path.below, h, eq_comm]

namespace OnWay

variable (w : OnWay fs root before above here)
include w

theorem join_eq (n : Name) : here.path.join n = root.below (before ++ [n]) := by
  rw [w.path, Path.below_concat]

/-- One level down, there is one directory more on the way. -/
theorem down (hloc : fs.resolve (root.below (before ++ [n])) = .ok loc)
    (hdir : fs.get? loc = some .directory) :
    OnWay fs root (before ++ [n]) (⟨loc, here.path.join n⟩ :: above) ⟨loc, here.path.join n⟩ where
  path := w.join_eq n
  resolves := by rwa [w.join_eq]
  directory := hdir
  above_iff l := by
    rw [List.map_cons, List.mem_cons, w.above_iff]
    simp only [List.prefix_concat_iff, or_and_right, exists_or, exists_eq_left, hloc, Except.ok.injEq]
    rw [eq_comm]

theorem look_eq_directory_iff_entered (hn : n.Valid) : look fs above here n = .directory loc ↔
    Entered fs root before n ∧ fs.resolve (root.below (before ++ [n])) = .ok loc := by
  rw [look_eq_directory_iff w.resolves w.directory hn, w.join_eq, isPassedOver_eq_false_iff, w.path,
    w.above_iff]
  constructor
  · rintro ⟨hloc, hdir, ⟨hmodules, hhidden⟩, hloop⟩
    refine ⟨⟨hn, ⟨loc, hloc, hdir⟩, hmodules, hhidden, ?_⟩, hloc⟩
    intro hlink names hnames heq
    exact hloop hlink ⟨names, hnames, heq.trans hloc⟩
  · rintro ⟨hentered, hloc⟩
    refine ⟨hloc, (FileSystem.isDirectory_iff hloc).1 hentered.directory,
      ⟨hentered.ne_modules, hentered.not_hidden⟩, ?_⟩
    rintro hlink ⟨names, hnames, heq⟩
    exact hentered.no_loop hlink names hnames (heq.trans hloc.symm)

end OnWay

/-- **What the walk meets.**  The files that it meets from a directory on are those that the names below the
directory lead to through entries that may be entered. -/
theorem mem_walk_iff (hfs : fs.WellNamed) (w : OnWay fs root before above here) :
    .file p ∈ walk fs above here ↔ ∃ names n, Descends fs root before names ∧ n.Valid ∧
      fs.IsFile (root.below (before ++ names ++ [n])) ∧ p = root.below (before ++ names ++ [n]) := by
  induction above, here using walk.induct fs generalizing before with
  | case1 above here ih =>
    rw [walk_eq, List.mem_flatMap]
    constructor
    · rintro ⟨n, hmem, hp⟩
      have hn := FileSystem.valid_of_mem_names hfs hmem
      cases hlook : look fs above here n with
      | file =>
        rw [hlook] at hp
        obtain rfl := Visit.file.inj (List.mem_singleton.1 hp)
        rw [look_eq_file_iff w.resolves w.directory hn, w.join_eq] at hlook
        exact ⟨[], n, descends_nil, hn, by simpa using hlook, by simp [w.join_eq]⟩
      | directory loc =>
        rw [hlook] at hp
        obtain ⟨hentered, hloc⟩ := (w.look_eq_directory_iff_entered hn).1 hlook
        have w' := w.down hloc ((FileSystem.isDirectory_iff hloc).1 hentered.directory)
        obtain ⟨names, m, hnames, hm, hfile, rfl⟩ := (ih n loc hlook w').1 hp
        refine ⟨n :: names, m, descends_cons_iff.2 ⟨hentered, hnames⟩, hm, ?_, ?_⟩
        · simpa using hfile
        · simp
      | passedOver => simp [hlook] at hp
      | problem q => simp [hlook] at hp
    · rintro ⟨names, n, hnames, hn, hfile, rfl⟩
      cases names with
      | nil =>
        rw [List.append_nil, ← w.join_eq] at hfile
        have hlook : look fs above here n = .file :=
          (look_eq_file_iff w.resolves w.directory hn).2 hfile
        refine ⟨n, mem_names_of_look hlook (by simp), ?_⟩
        simp [hlook, w.join_eq]
      | cons m names =>
        obtain ⟨hentered, hnames⟩ := descends_cons_iff.1 hnames
        obtain ⟨loc, hloc, hdir⟩ := hentered.directory
        have hlook := (w.look_eq_directory_iff_entered hentered.valid).2 ⟨hentered, hloc⟩
        refine ⟨m, mem_names_of_look hlook (by simp), ?_⟩
        rw [hlook]
        refine (ih m loc hlook (w.down hloc hdir)).2 ⟨names, n, hnames, hn, ?_, ?_⟩
        · simpa using hfile
        · simp

/-! ### The files of a run -/

theorem wanted?_eq_some_iff {v : Visit} : v.wanted? extensions = some p ↔
    v = .file p ∧ p.hasExtension extensions = true := by
  cases v with
  | file q =>
    rw [Visit.wanted?, Option.ite_none_right_eq_some, Option.some.injEq, Visit.file.injEq, and_comm]
    exact and_congr_right fun h => by rw [h]
  | problem q => simp [Visit.wanted?]

theorem yields_iff_of_file {mode : Nat} {contents : Bytes} (h : fs.resolve root = .ok loc)
    (hfile : fs.get? loc = some (.file mode contents)) :
    Yields fs extensions root p ↔ p = root := by
  simp [Yields, filesOf, h, hfile]

theorem yields_iff_of_directory (h : fs.resolve root = .ok loc)
    (hdir : fs.get? loc = some .directory) : Yields fs extensions root p ↔
      .file p ∈ walkFrom fs root loc ∧ p.hasExtension extensions = true := by
  simp [Yields, filesOf, h, hdir, List.mem_filterMap, wanted?_eq_some_iff]

/-- The eligible files are those that the roots stand for. -/
theorem eligible_iff_yields (hfs : fs.WellNamed) {roots : List Path} :
    Eligible fs extensions roots p ↔ ∃ root ∈ roots, Yields fs extensions root p := by
  constructor
  · intro h
    cases h with
    | given hroot hfile =>
      obtain ⟨loc, mode, c, hloc, hget⟩ := hfile
      exact ⟨p, hroot, (yields_iff_of_file hloc hget).2 rfl⟩
    | @found root names n hroot hdir hnames hn hfile hwanted =>
      obtain ⟨loc, hloc, hget⟩ := hdir
      refine ⟨root, hroot, (yields_iff_of_directory hloc hget).2 ⟨?_, ?_⟩⟩
      · exact (mem_walk_iff hfs (onWay_root hloc hget)).2 ⟨names, n, hnames, hn, hfile, rfl⟩
      · rw [Path.below_concat]
        exact (Path.hasExtension_join hn).2 hwanted
  · rintro ⟨root, hroot, hp⟩
    cases hloc : fs.resolve root with
    | error e =>
      obtain ⟨files, hfiles, -⟩ := hp
      simp [filesOf, hloc] at hfiles
    | ok loc =>
      rcases (FileSystem.place_of_resolve hloc).entry with hget | ⟨mode, c, hget⟩
      · obtain ⟨hwalk, hwanted⟩ := (yields_iff_of_directory hloc hget).1 hp
        obtain ⟨names, n, hnames, hn, hfile, rfl⟩ := (mem_walk_iff hfs (onWay_root hloc hget)).1 hwalk
        rw [Path.below_concat, Path.hasExtension_join hn] at hwanted
        exact .found hroot ⟨loc, hloc, hget⟩ hnames hn hfile hwanted
      · obtain rfl := (yields_iff_of_file hloc hget).1 hp
        exact .given hroot ⟨loc, mode, c, hloc, hget⟩

/-- **Exactly the eligible files are found.**  It is an error if a path that is given leads nowhere, and the first
one that does is named.  Otherwise all that is found is eligible, and all that is eligible is found, in some
spelling of its path. -/
theorem discover_eligible (fs : FileSystem) (hfs : fs.WellNamed) (extensions : List String)
    (roots : List Path) :
    (∀ e, discover fs extensions roots = .error e ↔
      ∃ before after, roots = before ++ e.path :: after ∧
        (∀ root ∈ before, ∃ loc, fs.resolve root = .ok loc) ∧ fs.resolve e.path = .error e.error) ∧
    ((∀ root ∈ roots, ∃ loc, fs.resolve root = .ok loc) →
      ∃ paths, discover fs extensions roots = .ok paths ∧
        (∀ p ∈ paths, Eligible fs extensions roots p) ∧
        ∀ p, Eligible fs extensions roots p → ∃ q ∈ paths, q.components = p.components) := by
  refine ⟨fun e => discover_eq_error_iff, fun hroots => ?_⟩
  cases hpaths : discover fs extensions roots with
  | error e =>
    obtain ⟨root, hroot, error, herror⟩ := exists_discover_eq_error_iff.1 ⟨e, hpaths⟩
    obtain ⟨loc, hloc⟩ := hroots root hroot
    cases hloc.symm.trans herror
  | ok paths =>
    obtain ⟨found, rfl, hfound⟩ := discover_eq_ok hpaths
    refine ⟨_, rfl, fun p hp => ?_, fun p hp => ?_⟩
    · exact (eligible_iff_yields hfs).2 ((hfound p).1 (Path.mem_of_mem_arrange hp))
    · obtain ⟨q, hq, hkey⟩ := Path.exists_mem_arrange ((hfound p).2 ((eligible_iff_yields hfs).1 hp))
      exact ⟨q, hq, Path.key_eq_iff.1 hkey⟩

/-! ### Links below a directory -/

namespace Aliased

open Bytes (ofString)

/-- A hidden file that can be reached through a link as well, a link that leads back up, and a directory that
is passed over unless it is given. -/
def files : FileSystem :=
  ((((FileSystem.empty.put (ofString "src/lib/.App.tsx") (.file 0o644 [])).put
    (ofString "src/alias") (.link (ofString "lib"))).put
    (ofString "src/lib/back") (.link (ofString ".."))).put
    (ofString "node_modules/m.js") (.file 0o644 []))

def roots : List Path :=
  [ofString "src", ofString "node_modules/m.js"]

theorem wellNamed : files.WellNamed := by
  have hempty : FileSystem.empty.WellNamed := by decide
  have happ := FileSystem.wellNamed_put hempty (ofString "src/lib/.App.tsx") (.file 0o644 [])
  have halias := FileSystem.wellNamed_put happ (ofString "src/alias") (.link (ofString "lib"))
  have hback := FileSystem.wellNamed_put halias (ofString "src/lib/back") (.link (ofString ".."))
  exact FileSystem.wellNamed_put hback (ofString "node_modules/m.js") (.file 0o644 [])

theorem resolve_src : files.resolve (ofString "src") = .ok [ofString "src"] := by
  cbv

theorem resolve_alias : files.resolve (ofString "src/alias") = .ok [ofString "src", ofString "lib"] := by
  cbv

theorem resolve_app : files.resolve (ofString "src/alias/.App.tsx") =
    .ok [ofString "src", ofString "lib", ofString ".App.tsx"] := by
  cbv

theorem resolve_module : files.resolve (ofString "node_modules/m.js") =
    .ok [ofString "node_modules", ofString "m.js"] := by
  cbv

theorem resolve_gone : files.resolve (ofString "src/gone") = .error .notFound := by
  cbv

theorem entered_alias : Entered files (ofString "src") [] (ofString "alias") where
  valid := by decide
  directory := ⟨_, resolve_alias, by cbv⟩
  ne_modules := by decide
  not_hidden := by decide
  no_loop := by
    intro _ names hnames
    obtain rfl := List.prefix_nil.1 hnames
    show files.resolve (ofString "src") ≠ files.resolve (ofString "src/alias")
    rw [resolve_src, resolve_alias]
    decide

theorem eligible_app : Eligible files ["tsx"] roots (ofString "src/alias/.App.tsx") := by
  have hnames : Descends files (ofString "src") [] [ofString "alias"] :=
    descends_cons_iff.2 ⟨entered_alias, descends_nil⟩
  have hfile : files.IsFile (Path.below (ofString "src") ([ofString "alias"] ++ [ofString ".App.tsx"])) :=
    ⟨_, 0o644, [], resolve_app, by cbv⟩
  have hwanted : ∃ s ∈ ["tsx"], Path.extensionOfName? (ofString ".App.tsx") = some (Bytes.ofString s) :=
    ⟨"tsx", by decide, by decide⟩
  exact .found (by decide) ⟨_, resolve_src, by cbv⟩ hnames (by decide) hfile hwanted

theorem eligible_module : Eligible files ["tsx"] roots (ofString "node_modules/m.js") :=
  .given (by decide) ⟨_, 0o644, [], resolve_module, by cbv⟩

theorem resolve_back : files.resolve (ofString "src/alias/back") = .ok [ofString "src"] := by
  cbv

/-- From the directory behind `alias`, the link `back` leads to the root again. -/
theorem not_entered_back : ¬ Entered files (ofString "src") [ofString "alias"] (ofString "back") := by
  intro h
  have hlink : files.HasLink (ofString "src/alias") (ofString "back") :=
    ⟨_, ofString "..", resolve_alias, by cbv⟩
  exact h.no_loop hlink [] (List.nil_prefix ..) (resolve_src.trans resolve_back.symm)

/-- The hidden file is found through the link, and the file that is given is found where no directory would be
entered and with another extension.  Nothing is found behind the link that leads back.  A path that leads
nowhere is named, although the one before it is good. -/
theorem discover_aliased : files.WellNamed ∧
    discover files ["tsx"] [ofString "src", ofString "src/gone"] = .error ⟨ofString "src/gone", .notFound⟩ ∧
    (∀ root ∈ roots, ∃ loc, files.resolve root = .ok loc) ∧
    ¬ Entered files (ofString "src") [ofString "alias"] (ofString "back") ∧
    ∃ paths, discover files ["tsx"] roots = .ok paths ∧
      (∀ p ∈ paths, Eligible files ["tsx"] roots p) ∧
      (∃ q ∈ paths, q.components = Path.components (ofString "src/alias/.App.tsx")) ∧
      ∃ q ∈ paths, q.components = Path.components (ofString "node_modules/m.js") := by
  have hroots : ∀ root ∈ roots, ∃ loc, files.resolve root = .ok loc := by
    simp [roots, resolve_src, resolve_module]
  obtain ⟨paths, hpaths, hsound, hcomplete⟩ :=
    (discover_eligible files wellNamed ["tsx"] roots).2 hroots
  refine ⟨wellNamed, ?_, hroots, not_entered_back, paths, hpaths, hsound, ?_, ?_⟩
  · apply ((discover_eligible files wellNamed ["tsx"] _).1 _).2
    exact ⟨[ofString "src"], [], rfl, by simp [resolve_src], resolve_gone⟩
  · exact hcomplete _ eligible_app
  · exact hcomplete _ eligible_module

end Aliased

end Discovery

end PlainComponents
