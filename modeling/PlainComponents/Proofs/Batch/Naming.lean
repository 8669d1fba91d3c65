import PlainComponents.Program.Workspace
import PlainComponents.Proofs.Batch.Resolution

/-!
# Names

The name of an entry is not empty, has no slash in it, and is neither `.` nor `..`.  A path goes into such
names only (`Path.valid_of_mem_steps`), and they are the only ones in a file system that is built from
paths: `Workspace.wellNamed_ofLines`.  So a name can be put behind a path and is read back from
there (`Path.steps_of_valid`).
-/

namespace PlainComponents

/-! ### Names in a path -/

theorem Bytes.not_mem_of_mem_split {separator : UInt8} {bs part : Bytes}
    (h : part ∈ split separator bs) : separator ∉ part := by
  induction bs generalizing part with
  | nil =>
    obtain rfl := List.mem_singleton.1 h
    exact List.not_mem_nil
  | cons b bs ih =>
    rw [split] at h
    split at h
    · rcases List.mem_cons.1 h with rfl | h
      · exact List.not_mem_nil
      · exact ih h
    next hb =>
      cases hbs : split separator bs with
      | nil => exact absurd hbs (split_ne_nil separator bs)
      | cons first parts =>
        rw [hbs] at h ih
        rcases List.mem_cons.1 h with rfl | h
        · rw [List.mem_cons, not_or]
          exact ⟨Ne.symm hb, ih List.mem_cons_self⟩
        · exact ih (List.mem_cons_of_mem _ h)

namespace Path

/-- A step that leads to a name of an entry, if to any. -/
def Step.Valid : Step → Prop
  | stay => True
  | up => True
  | into n => n.Valid

theorem valid_of_mem_steps {p : Path} {s : Step} (h : s ∈ steps p) : s.Valid := by
  obtain ⟨part, hpart, rfl⟩ := List.mem_map.1 h
  have hslash := Bytes.not_mem_of_mem_split hpart
  unfold Step.ofPart
  split_ifs with hnil hdot hdots
  · trivial
  · trivial
  · trivial
  · exact ⟨hnil, hslash, hdot, hdots⟩

end Path

/-! ### File systems with such names -/

namespace FileSystem

variable {fs : FileSystem} {loc l dir : Location} {n : Name} {steps : List Path.Step}

/-- The names of all entries, and those of the directories above them, may be names of entries. -/
def WellNamed (fs : FileSystem) : Prop :=
  ∀ e ∈ fs.entries, ∀ n ∈ e.1, n.Valid

instance (fs : FileSystem) : Decidable fs.WellNamed :=
  inferInstanceAs (Decidable (∀ e ∈ fs.entries, ∀ n ∈ e.1, n.Valid))

theorem valid_of_mem_names (h : fs.WellNamed) (hn : n ∈ fs.names dir) : n.Valid := by
  obtain ⟨e, he, hloc⟩ := List.mem_map.1 (mem_names_iff_listed.1 hn)
  exact h e he n (by simp [hloc])

theorem wellNamed_set (h : fs.WellNamed) (hloc : ∀ n ∈ loc, n.Valid) (entry : Entry) :
    (fs.set loc entry).WellNamed := by
  obtain ⟨es⟩ := fs
  show ∀ e ∈ assign loc entry es, ∀ n ∈ e.1, n.Valid
  have hes : ∀ e ∈ es, ∀ n ∈ e.1, n.Valid := h
  clear h
  induction es with
  | nil => simpa [assign] using hloc
  | cons e es ih =>
    rw [List.forall_mem_cons] at hes
    rw [assign]
    split
    · exact List.forall_mem_cons.2 ⟨hloc, hes.2⟩
    · exact List.forall_mem_cons.2 ⟨hes.1, ih hes.2⟩

/-- The names that steps have come by. -/
def Progress.Valid : Progress → Prop
  | arrived loc => ∀ n ∈ loc, n.Valid
  | atLink dir _ rest => (∀ n ∈ dir, n.Valid) ∧ ∀ s ∈ rest, s.Valid
  | failed _ => True

theorem valid_dropLast (h : ∀ n ∈ loc, n.Valid) : ∀ n ∈ loc.dropLast, n.Valid :=
  fun n hn => h n (List.dropLast_subset loc hn)

theorem valid_concat (h : ∀ n ∈ loc, n.Valid) (hn : n.Valid) : ∀ m ∈ loc ++ [n], m.Valid := by
  rw [List.forall_mem_append, List.forall_mem_singleton]
  exact ⟨h, hn⟩

theorem valid_advance (h : ∀ n ∈ loc, n.Valid) (hsteps : ∀ s ∈ steps, s.Valid) :
    (fs.advance loc steps).Valid := by
  induction steps generalizing loc with
  | nil => exact h
  | cons step rest ih =>
    rw [List.forall_mem_cons] at hsteps
    obtain ⟨hstep, hrest⟩ := hsteps
    unfold advance
    rcases fs.get? loc with - | (⟨mode, c⟩ | - | target)
    · trivial
    · trivial
    · cases step with
      | stay => exact ih h hrest
      | up => exact ih (valid_dropLast h) hrest
      | into n =>
        dsimp only
        rcases fs.get? (loc ++ [n]) with - | (⟨mode, c⟩ | - | target)
        · trivial
        · exact ih (valid_concat h hstep) hrest
        · exact ih (valid_concat h hstep) hrest
        · exact ⟨h, hrest⟩
    · trivial

/-- Links lead to valid names too, since their targets are paths. -/
theorem valid_of_follow {links : Nat} (h : ∀ n ∈ loc, n.Valid) (hsteps : ∀ s ∈ steps, s.Valid)
    (hfollow : fs.follow links loc steps = .ok l) : ∀ n ∈ l, n.Valid := by
  induction links generalizing loc steps with
  | zero =>
    rcases follow_eq_ok hfollow with harrived | ⟨left, dir, target, rest, hlinks, -⟩
    · have hvalid : (fs.advance loc steps).Valid := valid_advance h hsteps
      rwa [harrived] at hvalid
    · cases hlinks
  | succ links ih =>
    have hvalid : (fs.advance loc steps).Valid := valid_advance h hsteps
    rcases follow_eq_ok hfollow with harrived | ⟨left, dir, target, rest, hlinks, hlink, -, hrest⟩
    · rwa [harrived] at hvalid
    · obtain rfl := Nat.succ.inj hlinks
      rw [hlink] at hvalid
      obtain ⟨hdir, hsteps⟩ := hvalid
      refine ih ?_ ?_ hrest
      · unfold linkBase
        split
        · simp
        · exact hdir
      · rw [List.forall_mem_append]
        exact ⟨fun s hs => Path.valid_of_mem_steps hs, hsteps⟩

/-- Directories are made with the names of the steps. -/
theorem wellNamed_makeDirectories (h : fs.WellNamed) (hloc : ∀ n ∈ loc, n.Valid)
    (hsteps : ∀ s ∈ steps, s.Valid) :
    (fs.makeDirectories loc steps).1.WellNamed ∧ ∀ n ∈ (fs.makeDirectories loc steps).2, n.Valid := by
  fun_induction makeDirectories fs loc steps with
  | case1 => exact ⟨h, hloc⟩
  | case2 fs loc steps ih => exact ih h hloc (List.forall_mem_cons.1 hsteps).2
  | case3 fs loc steps ih => exact ih h (valid_dropLast hloc) (List.forall_mem_cons.1 hsteps).2
  | case4 fs loc n steps hnone ih =>
    obtain ⟨hn, hsteps⟩ := List.forall_mem_cons.1 hsteps
    have hchild := valid_concat hloc hn
    exact ih (wellNamed_set h hchild .directory) hchild hsteps
  | case5 fs loc n steps target hlink l hfollow ih =>
    obtain ⟨hn, hsteps⟩ := List.forall_mem_cons.1 hsteps
    exact ih h (valid_of_follow hloc (List.forall_mem_singleton.2 hn) hfollow) hsteps
  | case6 fs loc n steps target hlink e hfollow ih =>
    obtain ⟨hn, hsteps⟩ := List.forall_mem_cons.1 hsteps
    exact ih h (valid_concat hloc hn) hsteps
  | case7 fs loc n steps entry hentry hget ih =>
    obtain ⟨hn, hsteps⟩ := List.forall_mem_cons.1 hsteps
    exact ih h (valid_concat hloc hn) hsteps

theorem valid_of_parentSteps {p : Path} (h : parentSteps p = some (steps, n)) :
    (∀ s ∈ steps, s.Valid) ∧ n.Valid := by
  unfold parentSteps at h
  split at h
  next last before hreverse =>
    obtain ⟨rfl, rfl⟩ := Prod.mk.inj (Option.some.inj h)
    have hvalid : ∀ s ∈ Path.Step.into last :: before, s.Valid := by
      intro s hs
      rw [← hreverse, List.mem_reverse] at hs
      exact Path.valid_of_mem_steps (List.mem_filter.1 hs).1
    rw [List.forall_mem_cons] at hvalid
    exact ⟨fun s hs => hvalid.2 s (List.mem_reverse.1 hs), hvalid.1⟩
  next => cases h

theorem wellNamed_put (h : fs.WellNamed) (p : Path) (entry : Entry) : (fs.put p entry).WellNamed := by
  unfold put
  split
  next => exact h
  next steps n hparent =>
    obtain ⟨hsteps, hn⟩ := valid_of_parentSteps hparent
    have hroot : ∀ n ∈ ([] : Location), n.Valid := fun n hn => absurd hn List.not_mem_nil
    obtain ⟨hmade, hdir⟩ := wellNamed_makeDirectories h hroot hsteps
    exact wellNamed_set hmade (valid_concat hdir hn) entry

/-- Locking adds no entries. -/
theorem wellNamed_lock (h : fs.WellNamed) (p : Path) : (fs.lock p).WellNamed := by
  unfold lock
  split
  · exact h
  · exact h

end FileSystem

/-! ### Workspaces -/

namespace Workspace

variable {w w' : Workspace}

theorem wellNamed_addLine {line : Text} (h : w.files.WellNamed) (hadd : w.addLine line = some w') :
    w'.files.WellNamed := by
  unfold addLine at hadd
  split at hadd
  next =>
    obtain rfl := Option.some.inj hadd
    exact h
  next word arguments _ =>
    split at hadd
    · obtain ⟨path, -, hadd⟩ := Option.bind_eq_some_iff.1 hadd
      obtain rfl := Option.some.inj hadd
      exact FileSystem.wellNamed_put h path _
    · obtain ⟨mode, -, hadd⟩ := Option.bind_eq_some_iff.1 hadd
      obtain ⟨path, -, hadd⟩ := Option.bind_eq_some_iff.1 hadd
      obtain ⟨contents, -, hadd⟩ := Option.bind_eq_some_iff.1 hadd
      obtain rfl := Option.some.inj hadd
      exact FileSystem.wellNamed_put h path _
    · obtain ⟨path, -, hadd⟩ := Option.bind_eq_some_iff.1 hadd
      obtain ⟨target, -, hadd⟩ := Option.bind_eq_some_iff.1 hadd
      obtain rfl := Option.some.inj hadd
      exact FileSystem.wellNamed_put h path _
    · obtain ⟨path, -, hadd⟩ := Option.bind_eq_some_iff.1 hadd
      obtain rfl := Option.some.inj hadd
      exact FileSystem.wellNamed_lock h path
    -- trees leave the files alone
    · obtain ⟨dialect, -, hadd⟩ := Option.bind_eq_some_iff.1 hadd
      obtain ⟨source, -, hadd⟩ := Option.bind_eq_some_iff.1 hadd
      obtain rfl := Option.some.inj hadd
      exact h
    · obtain ⟨label, -, hadd⟩ := Option.bind_eq_some_iff.1 hadd
      obtain ⟨arity, -, hadd⟩ := Option.bind_eq_some_iff.1 hadd
      split at hadd
      · cases hadd
      · obtain rfl := Option.some.inj hadd
        exact h
    · cases hadd

/-- The names in a workspace may be names of entries. -/
theorem wellNamed_ofLines {lines : List Text} (h : ofLines? lines = some w) : w.files.WellNamed := by
  have hv : empty.files.WellNamed := fun e he => absurd he List.not_mem_nil
  rw [ofLines?] at h
  generalize empty = v at h hv
  induction lines generalizing v with
  | nil =>
    obtain rfl := Option.some.inj h
    exact hv
  | cons line lines ih =>
    rw [List.foldlM_cons] at h
    obtain ⟨v', hadd, hrest⟩ := Option.bind_eq_some_iff.1 h
    exact ih v' hrest (wellNamed_addLine hv hadd)

end Workspace

end PlainComponents
