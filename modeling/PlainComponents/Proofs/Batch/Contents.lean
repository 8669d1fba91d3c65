import Mathlib.Data.List.Basic
import PlainComponents.Batch.Discovery

/-!
# Changing the contents of files

A run changes contents and nothing else.  What is left of a file system once the contents are forgotten
is its `skeleton`: the locations, directories, links, modes and locks.  Where a path leads, and whether the
file there can be replaced, depends on the skeleton alone (`resolve_skeleton`, `obstacle?_skeleton`), so it
does not change while files are written.

Replacing a file stages the new contents in a temporary file and renames it.  The temporary name is not
taken (`temporary_ne`), so staging and renaming come down to one assignment in place: `replace_eq`.
Assignments at different locations commute (`set_set_comm`), which is all that the order of writes is about.
-/

namespace PlainComponents

/-- An entry without the contents of a file. -/
def Entry.hollow : Entry → Entry
  | file mode _ => file mode []
  | directory => directory
  | link target => link target

namespace FileSystem

variable {fs gs : FileSystem} {loc l : Location} {p q : Path} {entry : Entry}

/-! ### Entries -/

/-- The location is listed. -/
def Listed (fs : FileSystem) (loc : Location) : Prop :=
  loc ∈ fs.entries.map Prod.fst

theorem get?_of_ne_nil (h : loc ≠ []) :
    fs.get? loc = (fs.entries.find? fun e => e.1 = loc).map Prod.snd := by
  cases loc with
  | nil => exact absurd rfl h
  | cons n loc => rfl

/-- What is at the root is the root directory. -/
theorem ne_nil_of_get? (h : fs.get? loc = some entry) (hentry : entry ≠ .directory) : loc ≠ [] := by
  rintro rfl
  exact hentry (Option.some.inj h).symm

theorem listed_of_get? (h : fs.get? loc = some entry) (hne : loc ≠ []) : fs.Listed loc := by
  rw [get?_of_ne_nil hne, Option.map_eq_some_iff] at h
  obtain ⟨e, he, -⟩ := h
  have hl := List.find?_some he
  exact List.mem_map.2 ⟨e, List.mem_of_find?_eq_some he, by simpa using hl⟩

/-! ### Assignments -/

theorem find?_assign_self (es : List (Location × Entry)) :
    (assign loc entry es).find? (fun e => e.1 = loc) = some (loc, entry) := by
  induction es with
  | nil => simp [assign]
  | cons e es ih =>
    rw [assign]
    split
    · simp
    next h => rw [List.find?_cons_of_neg (by simpa using h), ih]

theorem find?_assign_of_ne (h : l ≠ loc) (es : List (Location × Entry)) :
    (assign loc entry es).find? (fun e => e.1 = l) = es.find? fun e => e.1 = l := by
  induction es with
  | nil => simp [assign, h.symm]
  | cons e es ih =>
    rw [assign]
    split
    next he =>
      subst he
      rw [List.find?_cons_of_neg (by simpa using h.symm), List.find?_cons_of_neg (by simpa using h.symm)]
    next => rw [List.find?_cons, List.find?_cons, ih]

theorem get?_set_self (h : loc ≠ []) : (fs.set loc entry).get? loc = some entry := by
  rw [get?_of_ne_nil h, set, find?_assign_self]
  rfl

theorem get?_set_of_ne (h : l ≠ loc) : (fs.set loc entry).get? l = fs.get? l := by
  cases l with
  | nil => rfl
  | cons n l =>
    rw [get?_of_ne_nil (List.cons_ne_nil n l), get?_of_ne_nil (List.cons_ne_nil n l), set,
      find?_assign_of_ne h]

theorem mem_map_fst_assign {es : List (Location × Entry)} (h : l ∈ es.map Prod.fst) :
    l ∈ (assign loc entry es).map Prod.fst := by
  induction es with
  | nil => cases h
  | cons e es ih =>
    rw [assign]
    split
    next he => simpa [he] using h
    next =>
      rw [List.map_cons, List.mem_cons] at h ⊢
      exact h.imp_right ih

/-- What is listed stays listed. -/
theorem Listed.set (h : fs.Listed l) : (fs.set loc entry).Listed l :=
  mem_map_fst_assign h

theorem assign_assign_comm {e e' : Entry} (hne : l ≠ loc) {es : List (Location × Entry)}
    (h : loc ∈ es.map Prod.fst) :
    assign l e' (assign loc e es) = assign loc e (assign l e' es) := by
  induction es with
  | nil => cases h
  | cons x es ih =>
    by_cases hx : x.1 = loc
    · simp only [assign, hx, hne.symm, if_true, if_false]
    · have hrest := ih ((List.mem_cons.1 h).resolve_left fun h => hx h.symm)
      by_cases hl : x.1 = l
      · simp only [assign, hl, hne, if_true, if_false]
      · simp only [assign, hx, hl, if_false, hrest]

/-- Assignments at different locations commute, if one of the locations is listed. -/
theorem set_set_comm {e e' : Entry} (hne : l ≠ loc) (h : fs.Listed loc) :
    (fs.set loc e).set l e' = (fs.set l e').set loc e := by
  unfold set
  rw [assign_assign_comm hne h]

/-- Assigns one entry after the other. -/
def setAll (fs : FileSystem) (ws : List (Location × Entry)) : FileSystem :=
  ws.foldl (fun fs w => fs.set w.1 w.2) fs

theorem setAll_append (fs : FileSystem) (us ws : List (Location × Entry)) :
    fs.setAll (us ++ ws) = (fs.setAll us).setAll ws :=
  List.foldl_append

theorem Listed.setAll (h : fs.Listed l) (ws : List (Location × Entry)) : (fs.setAll ws).Listed l := by
  induction ws generalizing fs with
  | nil => exact h
  | cons w ws ih => exact ih h.set

theorem get?_setAll_of_ne {ws : List (Location × Entry)} (h : ∀ w ∈ ws, w.1 ≠ l) :
    (fs.setAll ws).get? l = fs.get? l := by
  induction ws generalizing fs with
  | nil => rfl
  | cons w ws ih =>
    rw [List.forall_mem_cons] at h
    exact (ih h.2).trans (get?_set_of_ne h.1.symm)

/-- An assignment may come before others or after them. -/
theorem set_setAll_comm {e : Entry} {ws : List (Location × Entry)} (h : fs.Listed loc)
    (hne : ∀ w ∈ ws, w.1 ≠ loc) : (fs.set loc e).setAll ws = (fs.setAll ws).set loc e := by
  induction ws generalizing fs with
  | nil => rfl
  | cons w ws ih =>
    rw [List.forall_mem_cons] at hne
    show ((fs.set loc e).set w.1 w.2).setAll ws = ((fs.set w.1 w.2).setAll ws).set loc e
    rw [set_set_comm hne.1 h]
    exact ih h.set hne.2

/-! ### The skeleton -/

/-- Everything but the contents of the files. -/
def skeleton (fs : FileSystem) : FileSystem :=
  { fs with entries := fs.entries.map fun e => (e.1, e.2.hollow) }

theorem get?_skeleton (fs : FileSystem) (loc : Location) :
    fs.skeleton.get? loc = (fs.get? loc).map Entry.hollow := by
  cases loc with
  | nil => rfl
  | cons n loc =>
    rw [get?_of_ne_nil (List.cons_ne_nil n loc), get?_of_ne_nil (List.cons_ne_nil n loc), skeleton,
      List.find?_map, Option.map_map, Option.map_map]
    rfl

/-- File systems with the same skeleton have files, with the same modes, at the same locations. -/
theorem exists_file_of_skeleton {mode : Nat} {c : Bytes} (h : gs.skeleton = fs.skeleton)
    (hf : fs.get? loc = some (.file mode c)) : ∃ c', gs.get? loc = some (.file mode c') := by
  have hget := get?_skeleton gs loc
  rw [h, get?_skeleton, hf, Option.map_some] at hget
  obtain ⟨e, he, hollow⟩ := Option.map_eq_some_iff.1 hget.symm
  cases e with
  | file mode' c' =>
    obtain ⟨rfl, -⟩ := Entry.file.inj hollow
    exact ⟨c', he⟩
  | directory => cases hollow
  | link target => cases hollow

/-- Paths are followed through directories and links, whatever is in the files. -/
theorem advance_skeleton (fs : FileSystem) (loc : Location) (steps : List Path.Step) :
    fs.skeleton.advance loc steps = fs.advance loc steps := by
  induction steps generalizing loc with
  | nil => rfl
  | cons step rest ih =>
    unfold advance
    rw [get?_skeleton]
    -- only a directory lets the path go on
    rcases hloc : fs.get? loc with - | (⟨mode, c⟩ | - | target)
    · rfl
    · rfl
    · cases step with
      | stay => exact ih loc
      | up => exact ih loc.dropLast
      | into n =>
        simp only [Option.map_some, Entry.hollow, get?_skeleton]
        rcases hn : fs.get? (loc ++ [n]) with - | (⟨mode, c⟩ | - | target)
        · rfl
        · exact ih (loc ++ [n])
        · exact ih (loc ++ [n])
        · rfl
    · rfl

theorem follow_skeleton (fs : FileSystem) (links : Nat) (loc : Location) (steps : List Path.Step) :
    fs.skeleton.follow links loc steps = fs.follow links loc steps := by
  induction links generalizing loc steps with
  | zero => rw [follow, follow, advance_skeleton]
  | succ links ih =>
    rw [follow, follow, advance_skeleton]
    cases fs.advance loc steps with
    | arrived loc => rfl
    | atLink dir target rest => simp only [ih]
    | failed e => rfl

/-- Where a path leads does not depend on contents. -/
theorem resolve_skeleton (fs : FileSystem) (p : Path) : fs.skeleton.resolve p = fs.resolve p := by
  rw [resolve, resolve, follow_skeleton]

theorem resolve_eq_of_skeleton (h : gs.skeleton = fs.skeleton) (p : Path) :
    gs.resolve p = fs.resolve p := by
  rw [← resolve_skeleton gs, h, resolve_skeleton]

theorem names_skeleton (fs : FileSystem) (dir : Location) :
    fs.skeleton.names dir = fs.names dir := by
  unfold names skeleton
  rw [List.filterMap_map]
  rfl

/-- Whether a file can be replaced does not depend on contents, and neither does what is said if not. -/
theorem obstacle?_skeleton (fs : FileSystem) (staging : Staging) (loc : Location) :
    fs.skeleton.obstacle? staging loc = fs.obstacle? staging loc := by
  unfold obstacle? temporary
  rw [names_skeleton]
  rfl

theorem obstacle?_eq_of_skeleton (h : gs.skeleton = fs.skeleton) (staging : Staging)
    (loc : Location) : gs.obstacle? staging loc = fs.obstacle? staging loc := by
  rw [← obstacle?_skeleton gs, h, obstacle?_skeleton]

/-- The directory that holds the file at the location is not locked. -/
def Replaceable (fs : FileSystem) (loc : Location) : Prop :=
  ¬ fs.isLocked loc.dropLast

instance (fs : FileSystem) (loc : Location) : Decidable (fs.Replaceable loc) :=
  inferInstanceAs (Decidable (¬ _))

theorem replaceable_of_unlocked (h : fs.locked = []) : fs.Replaceable loc := by
  simp [Replaceable, isLocked, h]

theorem locked_eq_of_skeleton (h : gs.skeleton = fs.skeleton) : gs.locked = fs.locked :=
  show gs.skeleton.locked = fs.skeleton.locked by rw [h]

theorem obstacle?_eq_none_iff {staging : Staging} :
    fs.obstacle? staging loc = none ↔ fs.Replaceable loc := by
  unfold obstacle? Replaceable
  split <;> simp [*]

theorem obstacle?_of_locked (h : ¬ fs.Replaceable loc) (staging : Staging) :
    fs.obstacle? staging loc = some (.unstaged (staging.complaint (fs.temporary staging loc))) :=
  if_pos (not_not.1 h)

/-- An assignment that keeps the skeleton of the entry keeps that of the file system. -/
theorem skeleton_set {old : Entry} (h : fs.get? loc = some old) (hne : loc ≠ [])
    (hollow : entry.hollow = old.hollow) : (fs.set loc entry).skeleton = fs.skeleton := by
  rw [get?_of_ne_nil hne, Option.map_eq_some_iff] at h
  obtain ⟨e, hfind, rfl⟩ := h
  unfold set skeleton
  congr 1
  generalize fs.entries = es at hfind
  induction es with
  | nil => cases hfind
  | cons x es ih =>
    rw [assign]
    split
    next hx =>
      rw [List.find?_cons_of_pos (by simpa using hx)] at hfind
      obtain rfl := Option.some.inj hfind
      rw [List.map_cons, List.map_cons, hx, hollow]
    next hx =>
      rw [List.find?_cons_of_neg (by simpa using hx)] at hfind
      rw [List.map_cons, List.map_cons, ih hfind]

theorem skeleton_set_file {mode : Nat} {c : Bytes} (h : fs.get? loc = some (.file mode c))
    (d : Bytes) : (fs.set loc (.file mode d)).skeleton = fs.skeleton :=
  skeleton_set h (ne_nil_of_get? h (by simp)) rfl

/-! ### Replacing a file -/

/-- What is right below a directory is at its location, with one more name. -/
theorem childName?_eq_some_iff {dir : Location} {n : Name} :
    childName? dir loc = some n ↔ loc = dir ++ [n] := by
  induction dir generalizing loc with
  | nil =>
    rcases loc with - | ⟨m, - | ⟨m', loc⟩⟩ <;> simp [childName?]
  | cons a dir ih =>
    cases loc with
    | nil => simp [childName?]
    | cons m loc =>
      rw [childName?, List.cons_append, List.cons.injEq]
      split
      next h => rw [ih, and_iff_right h.symm]
      next h => exact iff_of_false (by simp) fun heq => h heq.1.symm

theorem mem_names_iff_listed {dir : Location} {n : Name} :
    n ∈ fs.names dir ↔ fs.Listed (dir ++ [n]) := by
  unfold names Listed
  rw [List.mem_mergeSort, List.mem_filterMap, List.mem_map]
  simp only [childName?_eq_some_iff]

/-- The temporary name is not taken. -/
theorem temporary_ne {e : Location × Entry} (h : e ∈ fs.entries) (staging : Staging)
    (loc : Location) : e.1 ≠ fs.temporary staging loc := by
  intro heq
  have hname : staging.name (fs.names loc.dropLast) loc ∈ fs.names loc.dropLast :=
    mem_names_iff_listed.2 (List.mem_map.2 ⟨e, h, heq⟩)
  exact staging.fresh _ _ hname

/-- A new entry can be taken away again without a trace. -/
theorem erase_set_of_fresh (h : ∀ e ∈ fs.entries, e.1 ≠ loc) : (fs.set loc entry).erase loc = fs := by
  unfold erase set
  congr 1
  generalize fs.entries = es at h
  show (assign loc entry es).filter _ = es
  induction es with
  | nil => simp [assign]
  | cons e es ih =>
    have he := h e List.mem_cons_self
    rw [assign, if_neg he, List.filter_cons_of_pos (by simpa using he),
      ih fun x hx => h x (List.mem_cons_of_mem _ hx)]

/-- Replacing what a path leads to, staging and renaming included, is one assignment in place.  Only what
is in a locked directory and a directory itself cannot be replaced, and then nothing changes. -/
theorem replace_eq (h : fs.resolve p = .ok loc) (staging : Staging) (contents : Bytes) :
    fs.replace staging p contents =
      match fs.obstacle? staging loc with
      | some e => (fs, some e)
      | none =>
        if fs.get? loc = some .directory then (fs, some .isADirectory)
        else (fs.set loc (.file (fs.modeAt loc) contents), none) := by
  have hfresh : ∀ e ∈ fs.entries, e.1 ≠ fs.temporary staging loc :=
    fun e he => temporary_ne he staging loc
  have hne : fs.temporary staging loc ≠ [] := by simp [temporary]
  unfold replace
  rw [h]
  dsimp only
  cases fs.obstacle? staging loc with
  | some e => rfl
  | none =>
    dsimp only
    generalize fs.temporary staging loc = temporary at hfresh hne ⊢
    rw [rename, get?_set_self hne, erase_set_of_fresh hfresh]
    by_cases hloc : loc = temporary
    · -- then there is nothing at the location
      have hnone : fs.get? loc = none := by
        rw [hloc, get?_of_ne_nil hne, List.find?_eq_none.2 (by simpa using hfresh)]
        rfl
      rw [if_neg (by simp [hnone]), hloc, get?_set_self hne]
    · rw [get?_set_of_ne hloc]
      rcases hget : fs.get? loc with - | (⟨mode, c⟩ | - | target) <;> rfl

end FileSystem

end PlainComponents
