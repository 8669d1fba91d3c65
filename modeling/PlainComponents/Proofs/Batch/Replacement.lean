import Mathlib
import PlainComponents.Proofs.Batch.Resolution

/-!
# Replacing a file

Replacing the file that a path leads to either does exactly that or does nothing (`replace_atomic`).  The
path may lead through any number of links, in any directories; it is the file at the end that gets the new
contents, and the links stay.  Nothing is left of the temporary file in which the contents are staged,
whether the renaming succeeds or not: it has a name of its own (`temporary_ne`), so staging and renaming are
one assignment (`replace_eq`).
-/

namespace PlainComponents

namespace FileSystem

variable {fs : FileSystem} {p : Path}

theorem lookup_of_file {loc : Location} {entry : Entry} (hp : fs.resolve p = .ok loc)
    (h : fs.get? loc = some entry) : fs.lookup p = .ok entry := by
  simp [lookup, hp, h, bind, Except.bind]

/-- Files are read as their mode allows. -/
theorem read_of_file {loc : Location} {mode : Nat} {contents : Bytes} (hp : fs.resolve p = .ok loc)
    (h : fs.get? loc = some (.file mode contents)) :
    fs.read p = if ownerReads mode then .ok contents else .error .denied := by
  rw [read, lookup_of_file hp h]
  rfl

/-- What can come of a replacement: the path leads nowhere, or into a locked directory, or to a directory,
or to a file. -/
theorem replace_cases (fs : FileSystem) (staging : Staging) (p : Path) (contents : Bytes) :
    (∃ e, fs.resolve p = .error e ∧ fs.replace staging p contents = (fs, some e)) ∨
    (∃ loc e, fs.resolve p = .ok loc ∧ fs.obstacle? staging loc = some e ∧
      fs.replace staging p contents = (fs, some e)) ∨
    (∃ loc, fs.resolve p = .ok loc ∧ fs.get? loc = some .directory ∧
      fs.replace staging p contents = (fs, some .isADirectory)) ∨
    ∃ loc mode old, fs.resolve p = .ok loc ∧ fs.get? loc = some (.file mode old) ∧
      fs.replace staging p contents = (fs.set loc (.file mode contents), none) := by
  cases hp : fs.resolve p with
  | error e => exact .inl ⟨e, rfl, by rw [replace, hp]⟩
  | ok loc =>
    have hreplace := replace_eq hp staging contents
    right
    cases hobstacle : fs.obstacle? staging loc with
    | some e =>
      rw [hobstacle] at hreplace
      exact .inl ⟨loc, e, rfl, hobstacle, hreplace⟩
    | none =>
      rw [hobstacle] at hreplace
      dsimp only at hreplace
      right
      rcases (place_of_resolve hp).entry with hdir | ⟨mode, old, hfile⟩
      · rw [if_pos hdir] at hreplace
        exact .inl ⟨loc, rfl, hdir, hreplace⟩
      · have hmode : fs.modeAt loc = mode := by rw [modeAt, hfile]
        rw [if_neg (by simp [hfile]), hmode] at hreplace
        exact .inr ⟨loc, mode, old, rfl, hfile, hreplace⟩

/-- The file that the path leads to holds the contents, and nothing else has changed. -/
structure Replaced (fs : FileSystem) (p : Path) (contents : Bytes) (after : FileSystem) : Prop where
  /-- The file keeps its place and its mode, and all other files, directories and links are what they were. -/
  target : ∃ loc mode old, fs.resolve p = .ok loc ∧ fs.get? loc = some (.file mode old) ∧
    after.get? loc = some (.file mode contents) ∧ ∀ l, l ≠ loc → after.get? l = fs.get? l
  /-- The path leads to the contents. -/
  lookup : ∃ mode, after.lookup p = .ok (.file mode contents)
  /-- Reading gives the contents back, if reading is allowed. -/
  read : fs.read p ≠ .error .denied → after.read p = .ok contents
  /-- Locations, directories, links, modes and locks are what they were, so there are no more entries and
  no fewer. -/
  skeleton : after.skeleton = fs.skeleton

theorem replaced_set {loc : Location} {mode : Nat} {old : Bytes} (hp : fs.resolve p = .ok loc)
    (hfile : fs.get? loc = some (.file mode old)) (contents : Bytes) :
    Replaced fs p contents (fs.set loc (.file mode contents)) := by
  have hnew : (fs.set loc (.file mode contents)).get? loc = some (.file mode contents) :=
    get?_set_self (ne_nil_of_get? hfile (by simp))
  have hskeleton := skeleton_set_file hfile contents
  -- the path leads where it led before
  have hp' := (resolve_eq_of_skeleton hskeleton p).trans hp
  refine ⟨⟨loc, mode, old, hp, hfile, hnew, fun l hl => get?_set_of_ne hl⟩,
    ⟨mode, lookup_of_file hp' hnew⟩, fun hopen => ?_, hskeleton⟩
  rw [read_of_file hp hfile] at hopen
  rw [read_of_file hp' hnew]
  split at hopen
  next h => rw [if_pos h]
  next => exact absurd rfl hopen

/-- **A file is replaced as a whole or not at all.**  If replacing succeeds, the path led to a file, through
whatever links, and that file holds the contents.  If it fails, because the path leads nowhere or to a
directory or into one that is locked, the file system is the same as before.  It succeeds whenever the path
leads to a file and the directory of that file is not locked. -/
theorem replace_atomic (fs : FileSystem) (staging : Staging) (p : Path) (contents : Bytes) :
    (∀ after, fs.replace staging p contents = (after, none) → Replaced fs p contents after) ∧
    (∀ after e, fs.replace staging p contents = (after, some e) → after = fs ∧
      (fs.resolve p = .error e ∨
        (e = .isADirectory ∧ ∃ loc, fs.resolve p = .ok loc ∧ fs.get? loc = some .directory) ∨
        ∃ loc, fs.resolve p = .ok loc ∧ ¬ fs.Replaceable loc ∧ fs.obstacle? staging loc = some e)) ∧
    ∀ loc mode old, fs.resolve p = .ok loc → fs.get? loc = some (.file mode old) →
      fs.Replaceable loc → ∃ after, fs.replace staging p contents = (after, none) := by
  rcases replace_cases fs staging p contents with
    ⟨e, hp, hreplace⟩ | ⟨loc, e, hp, hobstacle, hreplace⟩ | ⟨loc, hp, hdir, hreplace⟩ |
      ⟨loc, mode, old, hp, hfile, hreplace⟩
  · simp only [hreplace, Prod.mk.injEq]
    refine ⟨by simp, ?_, ?_⟩
    · rintro after e' ⟨rfl, he⟩
      obtain rfl := Option.some.inj he
      exact ⟨rfl, .inl hp⟩
    · intro loc mode old hloc
      cases hp.symm.trans hloc
  · have hlocked : ¬ fs.Replaceable loc := fun h =>
      by cases hobstacle.symm.trans (obstacle?_eq_none_iff.2 h)
    simp only [hreplace, Prod.mk.injEq]
    refine ⟨by simp, ?_, ?_⟩
    · rintro after e' ⟨rfl, he⟩
      obtain rfl := Option.some.inj he
      exact ⟨rfl, .inr (.inr ⟨loc, hp, hlocked, hobstacle⟩)⟩
    · intro loc' mode old hloc _ hfree
      obtain rfl := Except.ok.inj (hp.symm.trans hloc)
      exact absurd hfree hlocked
  · simp only [hreplace, Prod.mk.injEq]
    refine ⟨by simp, ?_, ?_⟩
    · rintro after e' ⟨rfl, he⟩
      obtain rfl := Option.some.inj he
      exact ⟨rfl, .inr (.inl ⟨rfl, loc, hp, hdir⟩)⟩
    · intro loc' mode old hloc hfile
      obtain rfl := Except.ok.inj (hp.symm.trans hloc)
      cases hdir.symm.trans hfile
  · simp only [hreplace, Prod.mk.injEq]
    refine ⟨?_, by simp, fun _ _ _ _ _ _ => ⟨_, rfl, trivial⟩⟩
    rintro after ⟨rfl, -⟩
    exact replaced_set hp hfile contents

/-! ### Two links in a row -/

namespace Chained

open Bytes (ofString)

/-- A link to a link in another directory, which leads to a file beside it; a link to itself; and a file in
a locked directory. -/
def files : FileSystem where
  entries :=
    [([ofString "src"], .directory),
      ([ofString "src", ofString "A.tsx"], .link (ofString "../lib/B.tsx")),
      ([ofString "src", ofString "loop"], .link (ofString "loop")),
      ([ofString "lib"], .directory),
      ([ofString "lib", ofString "B.tsx"], .link (ofString "C.tsx")),
      ([ofString "lib", ofString "C.tsx"], .file 0o600 [0x61]),
      ([ofString "kept"], .directory),
      ([ofString "kept", ofString "D.tsx"], .file 0o644 [0x61])]
  locked := [[ofString "kept"]]

/-- Replacing what the first link leads to changes the file at the end.  The link to itself leads nowhere,
`lib` is a directory and `kept` is locked, so there nothing happens. -/
theorem replace_through_links :
    (∃ after, files.replace .usual (ofString "src/A.tsx") [0x62] = (after, none) ∧
      Replaced files (ofString "src/A.tsx") [0x62] after ∧
      after.read (ofString "src/A.tsx") = .ok [0x62]) ∧
    files.replace .usual (ofString "src/loop") [0x62] = (files, some .linkLoop) ∧
    files.replace .usual (ofString "src/../lib") [0x62] = (files, some .isADirectory) ∧
    files.replace .usual (ofString "kept/D.tsx") [0x62] =
      (files, some (.unstaged (Staging.usual.complaint [ofString "kept", ofString ".defc.00000"]))) := by
  have hfile : files.resolve (ofString "src/A.tsx") = .ok [ofString "lib", ofString "C.tsx"] := by cbv
  have hread : files.read (ofString "src/A.tsx") ≠ .error .denied := by
    rw [read_of_file hfile rfl, if_pos (by decide)]
    simp
  have hfree : files.Replaceable [ofString "lib", ofString "C.tsx"] := by decide
  have hloop : (files.replace .usual (ofString "src/loop") [0x62]).2 = some .linkLoop := by cbv
  have hdir : (files.replace .usual (ofString "src/../lib") [0x62]).2 = some .isADirectory := by cbv
  have hkept : files.resolve (ofString "kept/D.tsx") = .ok [ofString "kept", ofString "D.tsx"] := by cbv
  have hlocked : ¬ files.Replaceable [ofString "kept", ofString "D.tsx"] := by decide
  have htemporary : files.temporary .usual [ofString "kept", ofString "D.tsx"] =
      [ofString "kept", ofString ".defc.00000"] := by cbv
  obtain ⟨hdone, -, hsucceeds⟩ := replace_atomic files .usual (ofString "src/A.tsx") [0x62]
  obtain ⟨-, hfails, -⟩ := replace_atomic files .usual (ofString "src/loop") [0x62]
  obtain ⟨-, hfails', -⟩ := replace_atomic files .usual (ofString "src/../lib") [0x62]
  obtain ⟨after, hafter⟩ := hsucceeds _ _ _ hfile rfl hfree
  have hreplaced := hdone after hafter
  refine ⟨⟨after, hafter, hreplaced, hreplaced.read hread⟩, ?_, ?_, ?_⟩
  · exact Prod.ext (hfails _ _ (Prod.ext rfl hloop)).1 hloop
  · exact Prod.ext (hfails' _ _ (Prod.ext rfl hdir)).1 hdir
  · rw [replace_eq hkept, obstacle?_of_locked hlocked, htemporary]

end Chained

end FileSystem

end PlainComponents
