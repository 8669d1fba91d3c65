import PlainComponents.Proofs.Batch.Contents

/-!
# Where a path leads

A path is followed step by step, and every link on it puts the steps of its target in front of those that
are left.  Two things are said about this here.

* Wherever it leads, there is a file or a directory, and the way down to it is through directories
  (`place_of_resolve`).  No assumption on the file system is needed: a path is followed from the root, and
  whatever else is listed is never reached.
* A path that is extended by a name leads on from where the path led.  If the entry of that name is no link,
  it is reached with the links that the path took (`resolve_join`), so the bound on their number does not
  matter below a directory that was reached.
-/

namespace PlainComponents

namespace FileSystem

variable {fs : FileSystem} {loc l : Location} {p : Path} {n : Name}

/-! ### Places -/

/-- The way down to the location is through directories. -/
inductive Rooted (fs : FileSystem) : Location → Prop
  | root : Rooted fs []
  | child {loc : Location} (h : Rooted fs loc) (hdir : fs.get? loc = some .directory) (n : Name) :
      Rooted fs (loc ++ [n])

/-- A file or a directory, with directories above it. -/
structure Place (fs : FileSystem) (loc : Location) : Prop where
  rooted : fs.Rooted loc
  entry : fs.get? loc = some .directory ∨ ∃ mode contents, fs.get? loc = some (.file mode contents)

theorem place_root (fs : FileSystem) : fs.Place [] :=
  ⟨.root, .inl rfl⟩

/-- What is above a place is a directory. -/
theorem Place.dropLast (h : fs.Place loc) : fs.Place loc.dropLast := by
  cases h.rooted with
  | root => exact place_root fs
  | child hrooted hdir n =>
    rw [List.dropLast_concat]
    exact ⟨hrooted, .inl hdir⟩

/-- The places that steps have come by. -/
def Progress.Placed (fs : FileSystem) : Progress → Prop
  | arrived loc => fs.Place loc
  | atLink dir _ _ => fs.Place dir
  | failed _ => True

/-- Steps lead from places to places. -/
theorem placed_advance (h : fs.Place loc) (steps : List Path.Step) :
    (fs.advance loc steps).Placed fs := by
  induction steps generalizing loc with
  | nil => exact h
  | cons step rest ih =>
    unfold advance
    rcases hloc : fs.get? loc with - | (⟨mode, c⟩ | - | target)
    · trivial
    · trivial
    · cases step with
      | stay => exact ih h
      | up => exact ih h.dropLast
      | into n =>
        dsimp only
        have hrooted := h.rooted.child hloc n
        rcases hn : fs.get? (loc ++ [n]) with - | (⟨mode, c⟩ | - | target)
        · trivial
        · exact ih ⟨hrooted, .inr ⟨mode, c, hn⟩⟩
        · exact ih ⟨hrooted, .inl hn⟩
        · exact h
    · trivial

/-! ### Following links -/

/-- Where the target of a link starts: at the root, or in the directory of the link. -/
def linkBase (dir : Location) (target : Path) : Location :=
  if Path.isAbsolute target then [] else dir

/-- Where steps lead is decided once they come to a link or to an end. -/
theorem follow_congr {xs ys : List Path.Step} (h : fs.advance loc xs = fs.advance l ys) (links : Nat) :
    fs.follow links loc xs = fs.follow links l ys := by
  cases links <;> simp only [follow, h]

theorem follow_of_atLink {steps rest : List Path.Step} {dir : Location} {target : Path} {links : Nat}
    (h : fs.advance loc steps = .atLink dir target rest) (ht : target ≠ []) :
    fs.follow (links + 1) loc steps =
      fs.follow links (linkBase dir target) (target.steps ++ rest) := by
  simp only [follow, h, if_neg ht]
  rfl

/-- Steps lead to a location directly, or through a link. -/
theorem follow_eq_ok {links : Nat} {steps : List Path.Step} (h : fs.follow links loc steps = .ok l) :
    fs.advance loc steps = .arrived l ∨
    ∃ left dir target rest, links = left + 1 ∧ fs.advance loc steps = .atLink dir target rest ∧
      target ≠ [] ∧ fs.follow left (linkBase dir target) (target.steps ++ rest) = .ok l := by
  cases hadvance : fs.advance loc steps with
  | arrived l' =>
    left
    cases links with
    | zero =>
      simp only [follow, hadvance, Except.ok.injEq] at h
      rw [h]
    | succ links =>
      simp only [follow, hadvance, Except.ok.injEq] at h
      rw [h]
  | atLink dir target rest =>
    right
    cases links with
    | zero => simp [follow, hadvance] at h
    | succ links =>
      have ht : target ≠ [] := by
        rintro rfl
        simp [follow, hadvance] at h
      rw [follow_of_atLink hadvance ht] at h
      exact ⟨links, dir, target, rest, rfl, rfl, ht, h⟩
  | failed e => cases links <;> simp [follow, hadvance] at h

theorem place_of_follow {links : Nat} {steps : List Path.Step} (h : fs.Place loc)
    (hfollow : fs.follow links loc steps = .ok l) : fs.Place l := by
  induction links generalizing loc steps with
  | zero =>
    rcases follow_eq_ok hfollow with harrived | ⟨left, dir, target, rest, hlinks, -⟩
    · have hplaced := placed_advance h steps
      rwa [harrived] at hplaced
    · cases hlinks
  | succ links ih =>
    have hplaced := placed_advance h steps
    rcases follow_eq_ok hfollow with harrived | ⟨left, dir, target, rest, hlinks, hlink, -, hrest⟩
    · rwa [harrived] at hplaced
    · obtain rfl := Nat.succ.inj hlinks
      rw [hlink] at hplaced
      refine ih ?_ hrest
      unfold linkBase
      split
      · exact place_root fs
      · exact hplaced

/-- A path that leads somewhere leads to a file or to a directory. -/
theorem place_of_resolve (h : fs.resolve p = .ok loc) : fs.Place loc := by
  unfold resolve at h
  split at h
  · cases h
  · exact place_of_follow (place_root fs) h

/-! ### More steps -/

/-- Goes on with more steps from where steps have led. -/
def Progress.andThen (fs : FileSystem) (more : List Path.Step) : Progress → Progress
  | arrived loc => fs.advance loc more
  | atLink dir target rest => atLink dir target (rest ++ more)
  | failed e => failed e

theorem advance_append (fs : FileSystem) (loc : Location) (xs ys : List Path.Step) :
    fs.advance loc (xs ++ ys) = (fs.advance loc xs).andThen fs ys := by
  induction xs generalizing loc with
  | nil => rfl
  | cons x xs ih =>
    simp only [List.cons_append, advance]
    rcases fs.get? loc with - | (⟨mode, c⟩ | - | target)
    · rfl
    · rfl
    · cases x with
      | stay => exact ih loc
      | up => exact ih loc.dropLast
      | into n =>
        dsimp only
        rcases fs.get? (loc ++ [n]) with - | (⟨mode, c⟩ | - | target)
        · rfl
        · exact ih (loc ++ [n])
        · exact ih (loc ++ [n])
        · rfl
    · rfl

/-- Once steps have led somewhere, more steps lead on from there, with the links that are left. -/
theorem follow_append {links : Nat} {xs : List Path.Step} (h : fs.follow links loc xs = .ok l) :
    ∃ left, ∀ ys, fs.follow links loc (xs ++ ys) = fs.follow left l ys := by
  induction links generalizing loc xs with
  | zero =>
    rcases follow_eq_ok h with harrived | ⟨left, dir, target, rest, hlinks, -⟩
    · refine ⟨0, fun ys => follow_congr ?_ 0⟩
      rw [advance_append, harrived]
      rfl
    · cases hlinks
  | succ links ih =>
    rcases follow_eq_ok h with harrived | ⟨left, dir, target, rest, hlinks, hlink, ht, hrest⟩
    · refine ⟨links + 1, fun ys => follow_congr ?_ _⟩
      rw [advance_append, harrived]
      rfl
    · obtain rfl := Nat.succ.inj hlinks
      obtain ⟨left, hleft⟩ := ih hrest
      refine ⟨left, fun ys => ?_⟩
      have hmore : fs.advance loc (xs ++ ys) = .atLink dir target (rest ++ ys) := by
        rw [advance_append, hlink]
        rfl
      rw [follow_of_atLink hmore ht, ← List.append_assoc]
      exact hleft ys

/-- That a directory is stayed in makes no difference before another step. -/
theorem follow_stay (links : Nat) (loc : Location) (xs : List Path.Step) (s : Path.Step)
    (ys : List Path.Step) :
    fs.follow links loc (xs ++ .stay :: s :: ys) = fs.follow links loc (xs ++ s :: ys) := by
  have hstay : ∀ l, fs.advance l (.stay :: s :: ys) = fs.advance l (s :: ys) := by
    intro l
    rw [advance]
    rcases hl : fs.get? l with - | (⟨mode, c⟩ | - | target)
    · simp [advance, hl]
    · simp [advance, hl]
    · rfl
    · simp [advance, hl]
  induction links generalizing loc xs with
  | zero =>
    rw [follow, follow, advance_append, advance_append]
    cases fs.advance loc xs with
    | arrived l => simp only [Progress.andThen, hstay]
    | atLink dir target rest => rfl
    | failed e => rfl
  | succ links ih =>
    rw [follow, follow, advance_append, advance_append]
    cases fs.advance loc xs with
    | arrived l => simp only [Progress.andThen, hstay]
    | atLink dir target rest => simp only [Progress.andThen, ← List.append_assoc, ih]
    | failed e => rfl

end FileSystem

/-! ### Names below a path -/

/-- A name that an entry may have. -/
structure Name.Valid (n : Name) : Prop where
  ne_nil : n ≠ []
  no_slash : Path.slash ∉ n
  ne_dot : n ≠ [Path.dot]
  ne_dots : n ≠ [Path.dot, Path.dot]

theorem Name.valid_iff {n : Name} :
    n.Valid ↔ n ≠ [] ∧ Path.slash ∉ n ∧ n ≠ [Path.dot] ∧ n ≠ [Path.dot, Path.dot] :=
  ⟨fun h => ⟨h.1, h.2, h.3, h.4⟩, fun h => ⟨h.1, h.2.1, h.2.2.1, h.2.2.2⟩⟩

instance (n : Name) : Decidable n.Valid :=
  decidable_of_iff' _ Name.valid_iff

theorem Bytes.split_ne_nil (separator : UInt8) (bs : Bytes) : split separator bs ≠ [] := by
  cases bs with
  | nil => simp [split]
  | cons b bs =>
    rw [split]
    split
    · simp
    · split <;> simp

/-- A separator splits what is before it and what is behind it. -/
theorem Bytes.split_append (separator : UInt8) (as bs : Bytes) :
    split separator (as ++ separator :: bs) = split separator as ++ split separator bs := by
  induction as with
  | nil => simp [split]
  | cons a as ih =>
    rw [List.cons_append, split, split, ih]
    split
    · rfl
    · cases has : split separator as with
      | nil => exact absurd has (split_ne_nil separator as)
      | cons part parts => rfl

theorem Bytes.split_of_not_mem {separator : UInt8} {bs : Bytes} (h : separator ∉ bs) :
    split separator bs = [bs] := by
  induction bs with
  | nil => rfl
  | cons b bs ih =>
    rw [List.mem_cons, not_or] at h
    rw [split, if_neg (Ne.symm h.1), ih h.2]

namespace Path

variable {p : Path} {n : Name}

theorem steps_append (p q : Path) : steps (p ++ slash :: q) = steps p ++ steps q := by
  rw [steps, Bytes.split_append, List.map_append]
  rfl

theorem steps_of_valid (h : n.Valid) : steps n = [.into n] := by
  rw [steps, Bytes.split_of_not_mem h.no_slash]
  simp [Step.ofPart, h.ne_nil, h.ne_dot, h.ne_dots]

/-- A path that ends in a slash leads on as if it did not. -/
theorem join_cases (p : Path) (n : Name) : join p n = p ++ slash :: n ∨
    ∃ q, p = q ++ [slash] ∧ join p n = q ++ slash :: n := by
  unfold join
  split
  next h =>
    obtain ⟨q, rfl⟩ := List.getLast?_eq_some_iff.1 h
    exact .inr ⟨q, rfl, by simp⟩
  next => exact .inl (by simp)

end Path

namespace FileSystem

variable {fs : FileSystem} {loc l : Location} {p : Path} {n : Name}

/-- A path extended by a name leads on from where the path led. -/
theorem exists_resolve_join (h : fs.resolve p = .ok loc) (hn : n.Valid) :
    ∃ left, fs.resolve (p.join n) = fs.follow left loc [.into n] := by
  have hp : p ≠ [] := by
    rintro rfl
    simp [resolve] at h
  rw [resolve, if_neg hp] at h
  obtain ⟨left, hleft⟩ := follow_append h
  refine ⟨left, (Eq.trans ?_ (hleft [.into n]))⟩
  rcases Path.join_cases p n with hjoin | ⟨q, rfl, hjoin⟩
  · rw [resolve, if_neg (by simp [hjoin]), hjoin, Path.steps_append, Path.steps_of_valid hn]
  · have hsteps : Path.steps (q ++ [Path.slash]) = q.steps ++ [.stay] := Path.steps_append q []
    rw [resolve, if_neg (by simp [hjoin]), hjoin, Path.steps_append, Path.steps_of_valid hn, hsteps,
      List.append_assoc]
    exact (follow_stay _ _ _ _ _).symm

/-- An entry of a directory that is no link is at the path of the directory and its own name. -/
theorem resolve_join {entry : Entry} (h : fs.resolve p = .ok loc)
    (hdir : fs.get? loc = some .directory) (hn : n.Valid) (he : fs.get? (loc ++ [n]) = some entry)
    (hlink : ∀ target, entry ≠ .link target) : fs.resolve (p.join n) = .ok (loc ++ [n]) := by
  obtain ⟨left, hleft⟩ := exists_resolve_join h hn
  have harrived : fs.advance loc [.into n] = fs.advance (loc ++ [n]) [] := by
    cases entry with
    | link target => exact absurd rfl (hlink target)
    | _ => simp [advance, hdir, he]
  rw [hleft, follow_congr harrived]
  cases left <;> rfl

/-- Where a path extended by a name leads, there is an entry of that name, or a link. -/
theorem entry_of_resolve_join (h : fs.resolve p = .ok loc) (hn : n.Valid)
    (hjoin : fs.resolve (p.join n) = .ok l) :
    (∃ target, fs.get? (loc ++ [n]) = some (.link target)) ∨ l = loc ++ [n] := by
  obtain ⟨left, hleft⟩ := exists_resolve_join h hn
  rw [hleft] at hjoin
  have hadvance : fs.advance loc [.into n] = .arrived l ∨
      ∃ dir target rest, fs.advance loc [.into n] = .atLink dir target rest := by
    rcases follow_eq_ok hjoin with harrived | ⟨-, dir, target, rest, -, hlink, -⟩
    · exact .inl harrived
    · exact .inr ⟨dir, target, rest, hlink⟩
  rcases hloc : fs.get? loc with - | (⟨mode, c⟩ | - | t)
  · simp [advance, hloc] at hadvance
  · simp [advance, hloc] at hadvance
  · rcases he : fs.get? (loc ++ [n]) with - | (⟨mode, c⟩ | - | target)
    · simp [advance, hloc, he] at hadvance
    · right
      simpa [advance, hloc, he, eq_comm] using hadvance
    · right
      simpa [advance, hloc, he, eq_comm] using hadvance
    · exact .inl ⟨target, rfl⟩
  · simp [advance, hloc] at hadvance

/-- Unless the entry is a link, the path of an entry leads to the entry itself. -/
theorem resolve_join_eq_ok_iff (h : fs.resolve p = .ok loc) (hdir : fs.get? loc = some .directory)
    (hn : n.Valid) (hlink : ∀ target, fs.get? (loc ++ [n]) ≠ some (.link target)) :
    fs.resolve (p.join n) = .ok l ↔ l = loc ++ [n] ∧ ∃ entry, fs.get? l = some entry := by
  constructor
  · intro hjoin
    rcases entry_of_resolve_join h hn hjoin with ⟨target, he⟩ | rfl
    · exact absurd he (hlink target)
    · rcases (place_of_resolve hjoin).entry with he | ⟨mode, c, he⟩
      · exact ⟨rfl, _, he⟩
      · exact ⟨rfl, _, he⟩
  · rintro ⟨rfl, entry, he⟩
    apply resolve_join h hdir hn he
    rintro target rfl
    exact hlink target he

end FileSystem

end PlainComponents
