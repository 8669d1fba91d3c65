import Mathlib
import PlainComponents.Batch.Discovery
import PlainComponents.Proofs.Traversal

/-!
# Files in order

The files of a run are sorted and then freed of repeats, where a repeat is a path with the components of
the one before it.  Comparing neighbours is enough because the order is one of components too: paths with the
same components stand together once they are sorted.  So the result rises strictly (`pairwise_arrange`) and
has every path that was found, up to spelling (`exists_mem_arrange`).

A list that rises strictly is determined by its members.  Hence the result depends on which paths were given
and not on how they were listed: `discover_arranged`.
-/

namespace PlainComponents

namespace Path

variable {p q : Path} {ps qs : List Path}

/-! ### The order of paths -/

/-- The place of a component among components of different sorts. -/
def Component.rank : Component → Nat
  | root => 0
  | current => 1
  | parent => 2
  | name _ => 3

/-- The root comes first, then `.`, then `..`, then the names, by their bytes. -/
def Component.Precedes (a b : Component) : Prop :=
  a.rank < b.rank ∨ ∃ m n, a = name m ∧ b = name n ∧ m < n

/-- The path comes before another one, component by component. -/
def Before (p q : Path) : Prop :=
  List.Lex Component.Precedes (components p) (components q)

theorem Component.key_lt_iff {a b : Component} : a.key < b.key ↔ a.Precedes b := by
  cases a <;> cases b <;> simp [key, Precedes, rank, List.cons_lt_cons_iff]

theorem Component.key_injective : Function.Injective Component.key := by
  intro a b h
  cases a <;> cases b <;> simp_all [key]

theorem key_eq_iff : key p = key q ↔ components p = components q :=
  Component.key_injective.list_map.eq_iff

/-- The keys of paths are in the order of their components. -/
theorem key_lt_iff : key p < key q ↔ Before p q := by
  unfold key Before
  generalize components p = as
  generalize components q = bs
  induction as generalizing bs with
  | nil =>
    cases bs with
    | nil => simp
    | cons b bs => exact iff_of_true .nil .nil
  | cons a as ih =>
    cases bs with
    | nil => exact iff_of_false (by simp) (by simp)
    | cons b bs =>
      rw [List.map_cons, List.map_cons, List.cons_lt_cons_iff, List.cons_lex_cons_iff,
        Component.key_lt_iff, Component.key_injective.eq_iff, ih]

/-! ### Sorting and removing repeats -/

theorem mem_of_mem_dropRepeats {kept : Path} (h : q ∈ dropRepeats kept ps) : q ∈ kept :: ps := by
  induction ps generalizing kept with
  | nil => exact h
  | cons p ps ih =>
    rw [dropRepeats] at h
    split at h
    · rcases List.mem_cons.1 (ih h) with rfl | h
      · exact List.mem_cons_self
      · exact List.mem_cons_of_mem _ (List.mem_cons_of_mem _ h)
    · rcases List.mem_cons.1 h with rfl | h
      · exact List.mem_cons_self
      · exact List.mem_cons_of_mem _ (ih h)

/-- A path that is removed has the components of one that is kept. -/
theorem exists_mem_dropRepeats {kept : Path} (h : q ∈ kept :: ps) :
    ∃ r ∈ dropRepeats kept ps, key r = key q := by
  induction ps generalizing kept q with
  | nil => exact ⟨q, h, rfl⟩
  | cons p ps ih =>
    rw [dropRepeats]
    split
    next hp =>
      rcases List.mem_cons.1 h with rfl | h
      · exact ih List.mem_cons_self
      · rcases List.mem_cons.1 h with rfl | h
        · obtain ⟨r, hr, hkey⟩ := ih (List.mem_cons_self (a := kept))
          exact ⟨r, hr, hkey.trans hp.symm⟩
        · exact ih (List.mem_cons_of_mem _ h)
    next =>
      rcases List.mem_cons.1 h with rfl | h
      · exact ⟨q, List.mem_cons_self, rfl⟩
      · obtain ⟨r, hr, hkey⟩ := ih h
        exact ⟨r, List.mem_cons_of_mem _ hr, hkey⟩

/-- Without repeats, paths that do not fall rise. -/
theorem pairwise_dropRepeats {kept : Path} (h : (kept :: ps).Pairwise fun p q => key p ≤ key q) :
    (dropRepeats kept ps).Pairwise fun p q => key p < key q := by
  induction ps generalizing kept with
  | nil => exact List.pairwise_singleton _ _
  | cons p ps ih =>
    obtain ⟨hkept, hps⟩ := List.pairwise_cons.1 h
    rw [dropRepeats]
    split
    next => exact ih (h.sublist (by simp))
    next hp =>
      refine List.pairwise_cons.2 ⟨fun q hq => ?_, ih hps⟩
      have hlt : key kept < key p := Std.lt_of_le_of_ne (hkept p List.mem_cons_self) (Ne.symm hp)
      -- what is kept behind `p` does not come before it
      rcases List.mem_cons.1 (mem_of_mem_dropRepeats hq) with rfl | hq
      · exact hlt
      · exact Std.lt_of_lt_of_le hlt ((List.pairwise_cons.1 hps).1 q hq)

theorem pairwise_mergeSort (ps : List Path) :
    (ps.mergeSort notAfter).Pairwise fun p q => key p ≤ key q := by
  have hsorted : (ps.mergeSort notAfter).Pairwise fun p q => notAfter p q = true := by
    apply List.pairwise_mergeSort
    · intro a b c hab hbc
      simp only [notAfter, decide_eq_true_eq] at hab hbc ⊢
      exact List.le_trans hab hbc
    · intro a b
      simp only [notAfter, Bool.or_eq_true, decide_eq_true_eq]
      exact List.le_total _ _
  exact hsorted.imp fun h => by simpa [notAfter] using h

theorem mem_of_mem_arrange (h : q ∈ arrange ps) : q ∈ ps := by
  unfold arrange at h
  split at h
  · cases h
  next p rest hsort =>
    rw [← List.mem_mergeSort, hsort]
    exact mem_of_mem_dropRepeats h

/-- Every path is arranged, in some spelling. -/
theorem exists_mem_arrange (h : q ∈ ps) : ∃ r ∈ arrange ps, key r = key q := by
  have hmem : q ∈ ps.mergeSort notAfter := List.mem_mergeSort.2 h
  unfold arrange
  split
  next hsort => simp [hsort] at hmem
  next p rest hsort =>
    rw [hsort] at hmem
    exact exists_mem_dropRepeats hmem

theorem pairwise_arrange (ps : List Path) : (arrange ps).Pairwise fun p q => key p < key q := by
  have hsorted := pairwise_mergeSort ps
  unfold arrange
  split
  · exact .nil
  next p rest hsort =>
    rw [hsort] at hsorted
    exact pairwise_dropRepeats hsorted

theorem mem_map_key_arrange {k : List Bytes} : k ∈ (arrange ps).map key ↔ ∃ p ∈ ps, key p = k := by
  rw [List.mem_map]
  constructor
  · rintro ⟨p, hp, rfl⟩
    exact ⟨p, mem_of_mem_arrange hp, rfl⟩
  · rintro ⟨p, hp, rfl⟩
    exact exists_mem_arrange hp

/-- The components that are arranged are determined by the paths that there are, in whatever order. -/
theorem map_key_arrange (h : ∀ p, p ∈ ps ↔ p ∈ qs) : (arrange ps).map key = (arrange qs).map key := by
  have hrising : ∀ ps : List Path, ((arrange ps).map key).Pairwise (· < ·) := fun ps =>
    List.pairwise_map.2 (pairwise_arrange ps)
  apply List.Pairwise.eq_of_mem_iff (hrising ps) (hrising qs)
  intro k
  simp only [mem_map_key_arrange, h]

end Path

namespace Discovery

variable {fs : FileSystem} {extensions : List String} {roots : List Path} {root : Path}

/-! ### What is found -/

theorem filesOf_eq_error_iff {e : PathError} :
    filesOf fs extensions root = .error e ↔ e.path = root ∧ fs.resolve root = .error e.error := by
  obtain ⟨path, error⟩ := e
  unfold filesOf
  cases hroot : fs.resolve root with
  | error e => simp [eq_comm]
  | ok loc =>
    dsimp only
    split <;> simp

theorem exists_filesOf_eq_ok_iff :
    (∃ files, filesOf fs extensions root = .ok files) ↔ ∃ loc, fs.resolve root = .ok loc := by
  unfold filesOf
  cases fs.resolve root with
  | error e => simp
  | ok loc =>
    dsimp only
    split <;> simp

theorem discover_eq_error_iff_mapM {e : PathError} :
    discover fs extensions roots = .error e ↔ roots.mapM (filesOf fs extensions) = .error e := by
  unfold discover
  cases roots.mapM (filesOf fs extensions) <;> simp [bind, Except.bind, pure, Except.pure]

/-- Finding files fails with the first path that leads nowhere. -/
theorem discover_eq_error_iff {e : PathError} : discover fs extensions roots = .error e ↔
    ∃ before after, roots = before ++ e.path :: after ∧
      (∀ root ∈ before, ∃ loc, fs.resolve root = .ok loc) ∧ fs.resolve e.path = .error e.error := by
  rw [discover_eq_error_iff_mapM]
  constructor
  · intro h
    obtain ⟨before, root, after, rfl, hbefore, hroot⟩ := exists_of_mapM_eq_error h
    obtain ⟨rfl, herror⟩ := filesOf_eq_error_iff.1 hroot
    exact ⟨before, after, rfl, fun r hr => exists_filesOf_eq_ok_iff.1 (hbefore r hr), herror⟩
  · rintro ⟨before, after, rfl, hbefore, herror⟩
    apply mapM_eq_error_of_first
    · exact fun r hr => exists_filesOf_eq_ok_iff.2 (hbefore r hr)
    · exact filesOf_eq_error_iff.2 ⟨rfl, herror⟩

theorem unresolved_of_discover {e : PathError} (h : discover fs extensions roots = .error e) :
    e.path ∈ roots ∧ fs.resolve e.path = .error e.error := by
  obtain ⟨before, after, hroots, -, herror⟩ := discover_eq_error_iff.1 h
  exact ⟨by simp [hroots], herror⟩

/-- The path is one of the files that the root stands for. -/
def Yields (fs : FileSystem) (extensions : List String) (root path : Path) : Prop :=
  ∃ files, filesOf fs extensions root = .ok files ∧ path ∈ files

/-- The files of a run are those that the roots stand for, arranged. -/
theorem discover_eq_ok {paths : List Path} (h : discover fs extensions roots = .ok paths) :
    ∃ found, paths = Path.arrange found ∧
      ∀ p, p ∈ found ↔ ∃ root ∈ roots, Yields fs extensions root p := by
  unfold discover at h
  cases hfiles : roots.mapM (filesOf fs extensions) with
  | error e => simp [hfiles, bind, Except.bind] at h
  | ok files =>
    simp only [hfiles, bind, Except.bind, pure, Except.pure, Except.ok.injEq] at h
    refine ⟨files.flatten, h.symm, fun p => ?_⟩
    have hall := forall₂_of_mapM_eq_ok hfiles
    clear h hfiles
    induction hall with
    | nil => simp
    | @cons root own roots files hroot hrest ih =>
      rw [List.flatten_cons, List.mem_append, List.exists_mem_cons_iff]
      refine or_congr ⟨fun hp => ⟨own, hroot, hp⟩, ?_⟩ ih
      rintro ⟨files, hfiles, hp⟩
      obtain rfl := Except.ok.inj (hfiles.symm.trans hroot)
      exact hp

theorem exists_discover_eq_error_iff : (∃ e, discover fs extensions roots = .error e) ↔
    ∃ root ∈ roots, ∃ error, fs.resolve root = .error error := by
  simp only [discover_eq_error_iff_mapM, exists_mapM_eq_error_iff, filesOf_eq_error_iff]
  constructor
  · rintro ⟨root, hroot, e, -, herror⟩
    exact ⟨root, hroot, e.error, herror⟩
  · rintro ⟨root, hroot, error, herror⟩
    exact ⟨root, hroot, ⟨root, error⟩, rfl, herror⟩

/-- **Files are found in order, each once, however the paths are listed.**  They rise strictly in the order
of components, so no two have the same.  Lists of the same paths, in another order or with repeats, both lead
to an error, or to files with the same components. -/
theorem discover_arranged (fs : FileSystem) (extensions : List String) :
    (∀ roots paths, discover fs extensions roots = .ok paths →
      paths.Pairwise Path.Before ∧ (paths.map Path.components).Nodup) ∧
    ∀ roots others, (∀ p, p ∈ roots ↔ p ∈ others) →
      (∃ e e', discover fs extensions roots = .error e ∧ discover fs extensions others = .error e') ∨
      ∃ paths found, discover fs extensions roots = .ok paths ∧
        discover fs extensions others = .ok found ∧
        paths.map Path.components = found.map Path.components := by
  constructor
  · intro roots paths h
    obtain ⟨found, rfl, -⟩ := discover_eq_ok h
    have hrising := Path.pairwise_arrange found
    refine ⟨hrising.imp Path.key_lt_iff.1, List.pairwise_map.2 (hrising.imp ?_)⟩
    intro p q hlt heq
    rw [Path.key_eq_iff.2 heq] at hlt
    exact List.lt_irrefl _ hlt
  · intro roots others h
    have hfails : (∃ e, discover fs extensions roots = .error e) ↔
        ∃ e, discover fs extensions others = .error e := by
      simp only [exists_discover_eq_error_iff, h]
    cases hroots : discover fs extensions roots with
    | error e =>
      obtain ⟨e', he'⟩ := hfails.1 ⟨e, hroots⟩
      exact .inl ⟨e, e', rfl, he'⟩
    | ok paths =>
      cases hothers : discover fs extensions others with
      | error e' =>
        obtain ⟨e, he⟩ := hfails.2 ⟨e', hothers⟩
        cases he.symm.trans hroots
      | ok found =>
        refine .inr ⟨paths, found, rfl, rfl, ?_⟩
        obtain ⟨ps, rfl, hps⟩ := discover_eq_ok hroots
        obtain ⟨qs, rfl, hqs⟩ := discover_eq_ok hothers
        have hmem : ∀ p, p ∈ ps ↔ p ∈ qs := fun p => by simp only [hps, hqs, h]
        -- keys are components written as bytes
        apply Path.Component.key_injective.list_map.list_map
        rw [List.map_map, List.map_map]
        exact Path.map_key_arrange hmem

/-! ### Roots that overlap -/

namespace Overlapping

open Bytes (ofString)

/-- A directory with two files. -/
def files : FileSystem :=
  ⟨[([ofString "src"], .directory),
    ([ofString "src", ofString "B.tsx"], .file 0o644 []),
    ([ofString "src", ofString "A.tsx"], .file 0o644 [])], []⟩

theorem discover_eq : discover files ["tsx"] [ofString "src", ofString "src//A.tsx"] =
    .ok [ofString "src/A.tsx", ofString "src/B.tsx"] := by
  cbv

theorem discover_repeated_eq :
    discover files ["tsx"] [ofString "src//A.tsx", ofString "src", ofString "src"] =
      .ok [ofString "src//A.tsx", ofString "src/B.tsx"] := by
  cbv

/-- One of the files is given as well, with two slashes.  It is found twice and kept once, as it is spelt
where it is found first. -/
theorem discover_overlapping :
    discover files ["tsx"] [ofString "src", ofString "src//A.tsx"] =
      .ok [ofString "src/A.tsx", ofString "src/B.tsx"] ∧
    discover files ["tsx"] [ofString "src//A.tsx", ofString "src", ofString "src"] =
      .ok [ofString "src//A.tsx", ofString "src/B.tsx"] ∧
    [ofString "src/A.tsx", ofString "src/B.tsx"].Pairwise Path.Before ∧
    (∀ p, p ∈ [ofString "src", ofString "src//A.tsx"] ↔
      p ∈ [ofString "src//A.tsx", ofString "src", ofString "src"]) ∧
    [ofString "src/A.tsx", ofString "src/B.tsx"].map Path.components =
      [ofString "src//A.tsx", ofString "src/B.tsx"].map Path.components := by
  have hsame : ∀ p, p ∈ [ofString "src", ofString "src//A.tsx"] ↔
      p ∈ [ofString "src//A.tsx", ofString "src", ofString "src"] := by
    simp [or_comm]
  obtain ⟨hrising, hagree⟩ := discover_arranged files ["tsx"]
  refine ⟨discover_eq, discover_repeated_eq, (hrising _ _ discover_eq).1, hsame, ?_⟩
  rcases hagree _ _ hsame with ⟨e, -, he, -⟩ | ⟨paths, found, hpaths, hfound, hcomponents⟩
  · cases he.symm.trans discover_eq
  · rw [Except.ok.inj (discover_eq.symm.trans hpaths),
      Except.ok.inj (discover_repeated_eq.symm.trans hfound)]
    exact hcomponents

end Overlapping

end Discovery

end PlainComponents
