import PlainComponents.Tree.Basic

/-!
# Cursors

A cursor is a place in a tree: the subtree in focus and the way back up, which keeps the siblings on
either side at every level.  From a place one can go to the first child, to the next sibling, or
up.  `Cursor.walk` visits everything from its start by these moves alone: down if possible, else
right, else up until there is something to the right.

The walk ends because every move forward leaves fewer nodes to visit (`remaining_next?`).
-/

namespace PlainComponents

/-- One level on the way up: the parent's label and the siblings of the focus. -/
structure Crumb where
  label : Label
  /-- The siblings before the focus, the nearest first. -/
  before : List Tree
  /-- The siblings after the focus. -/
  after : List Tree

/-- A subtree in focus and the levels above it, the nearest first. -/
structure Cursor where
  focus : Tree
  trail : List Crumb

namespace Cursor

/-- The cursor at the top of a tree, which it cannot leave. -/
def top (t : Tree) : Cursor :=
  ⟨t, []⟩

/-! ### Moves -/

def firstChild? : Cursor → Option Cursor
  | ⟨.node l (c :: cs), trail⟩ => some ⟨c, ⟨l, [], cs⟩ :: trail⟩
  | _ => none

def nextSibling? : Cursor → Option Cursor
  | ⟨t, ⟨l, before, a :: after⟩ :: trail⟩ => some ⟨a, ⟨l, t :: before, after⟩ :: trail⟩
  | _ => none

def parent? : Cursor → Option Cursor
  | ⟨t, ⟨l, before, after⟩ :: trail⟩ => some ⟨.node l (before.reverseAux (t :: after)), trail⟩
  | _ => none

/-- The next sibling of the focus or, if it has none, of the nearest level above that has one. -/
def skip? : Tree → List Crumb → Option Cursor
  | _, [] => none
  | t, ⟨l, before, a :: after⟩ :: trail => some ⟨a, ⟨l, t :: before, after⟩ :: trail⟩
  | t, ⟨l, before, []⟩ :: trail => skip? (.node l (before.reverseAux [t])) trail

/-- The next place in reading order. -/
def next? (c : Cursor) : Option Cursor :=
  match c.firstChild? with
  | some d => some d
  | none => skip? c.focus c.trail

/-! ### The walk -/

/-- The number of nodes to the right of the way up. -/
def pending : List Crumb → Nat
  | [] => 0
  | c :: trail => Tree.sizeAll c.after + pending trail

/-- The number of nodes from the focus on. -/
def remaining (c : Cursor) : Nat :=
  c.focus.size + pending c.trail

theorem remaining_skip? {t : Tree} {trail : List Crumb} {d : Cursor}
    (h : skip? t trail = some d) : d.remaining = pending trail := by
  induction trail generalizing t with
  | nil => simp [skip?] at h
  | cons c trail ih =>
    obtain ⟨l, before, after⟩ := c
    cases after with
    | nil => simpa [pending, Tree.sizeAll] using ih h
    | cons a after =>
      obtain rfl : _ = d := Option.some.inj h
      simp [remaining, pending, Tree.sizeAll, Nat.add_assoc]

theorem remaining_firstChild? {c d : Cursor} (h : c.firstChild? = some d) :
    d.remaining + 1 = c.remaining := by
  obtain ⟨⟨l, cs⟩, trail⟩ := c
  cases cs with
  | nil => simp [firstChild?] at h
  | cons a cs =>
    obtain rfl : _ = d := Option.some.inj h
    simp only [remaining, pending, Tree.size, Tree.sizeAll]
    omega

theorem size_pos (t : Tree) : 0 < t.size := by
  obtain ⟨l, cs⟩ := t
  simp [Tree.size]

/-- Every move forward leaves fewer nodes to visit. -/
theorem remaining_next? {c d : Cursor} (h : c.next? = some d) : d.remaining < c.remaining := by
  unfold next? at h
  split at h
  · next e hc =>
    obtain rfl : e = d := Option.some.inj h
    have := remaining_firstChild? hc
    omega
  · have := remaining_skip? h
    have := size_pos c.focus
    unfold remaining at *
    omega

/-- Everything from the focus on, in the order in which the moves reach it. -/
def walk (c : Cursor) : List Tree :=
  match _h : c.next? with
  | none => [c.focus]
  | some d => c.focus :: walk d
termination_by c.remaining
decreasing_by exact remaining_next? _h

end Cursor

end PlainComponents
