import Mathlib.Logic.Function.Iterate
import PlainComponents.Proofs.Component.Declared
import PlainComponents.Proofs.Tree.Address
import PlainComponents.Proofs.Tree.Concrete

/-!
# The tour of a cursor

`Cursor.walk` finds the next node by one look to the right of the way up.  A cursor that can only be
moved by one child, sibling or parent at a time gets there in several moves, and it keeps no record of
where it has been.  This module is about that cursor.

* `Tour.advance` makes one move.  On arriving at a node the tour goes down if it can; otherwise it leaves
  the node, to the right if it can and else upwards, until it cannot leave the top.
* `Stage.ahead` is what the tour has yet to visit.  A move visits what it takes away from there
  (`visit_append_ahead_next`), so what is visited and what is ahead always add up to the same chart.
* `Stage.toGo` is the number of moves to come, and a move takes one away (`toGo_next`).  The tour of a
  tree is thus over after two moves for each node, once it has visited the survey of the tree
  (`iterate_advance_eq_finished_iff`).

Component declarations are read off the nodes of the tour, so none is missed: `tour_complete`.
-/

namespace PlainComponents

/-- Where a tour is. -/
inductive Stage where
  /-- It has come to a place for the first time. -/
  | arriving (c : Cursor)
  /-- It is done with a place and all below it. -/
  | leaving (c : Cursor)
  | finished

/-- A tour, with the nodes it has visited so far and their addresses. -/
structure Tour where
  stage : Stage
  visited : List (Address × Tree)

namespace Cursor

/-- The address of the focus, from the way up. -/
def addressOf : List Crumb → Address
  | [] => []
  | b :: trail => addressOf trail ++ [b.before.length]

/-- The nodes to the right of the way up, with their addresses. -/
def rightOf : List Crumb → List (Address × Tree)
  | [] => []
  | b :: trail =>
    beneath (addressOf trail) (under Tree.survey (b.before.length + 1) b.after) ++ rightOf trail

end Cursor

/-! ### One move -/

namespace Stage

open Cursor

/-- The stage after one move of the cursor. -/
def next : Stage → Stage
  | arriving c =>
    match c.firstChild? with
    | some d => arriving d
    | none => leaving c
  | leaving c =>
    match c.nextSibling? with
    | some d => arriving d
    | none =>
      match c.parent? with
      | some d => leaving d
      | none => finished
  | finished => finished

/-- The node that is visited at a stage, if any. -/
def visit : Stage → List (Address × Tree)
  | arriving c => [(addressOf c.trail, c.focus)]
  | _ => []

/-- What is still to be visited. -/
def ahead : Stage → List (Address × Tree)
  | arriving c => beneath (addressOf c.trail) c.focus.survey ++ rightOf c.trail
  | leaving c => rightOf c.trail
  | finished => []

/-- The number of moves until the tour is over. -/
def toGo : Stage → Nat
  | arriving c => 2 * c.remaining + c.trail.length
  | leaving c => 2 * pending c.trail + c.trail.length + 1
  | finished => 0

/-- A move visits what it takes away from what is ahead. -/
theorem visit_append_ahead_next (s : Stage) : s.visit ++ s.next.ahead = s.ahead := by
  cases s with
  | arriving c =>
    obtain ⟨⟨l, cs⟩, trail⟩ := c
    cases cs with
    | nil => simp [next, firstChild?, visit, ahead, Tree.survey_node, under, beneath]
    | cons c cs =>
      -- the first child stands at the index 0, and the others are now to the right of the way up
      show (addressOf trail, _) :: (beneath (addressOf trail ++ [0]) c.survey ++
        (beneath (addressOf trail) (under Tree.survey 1 cs) ++ rightOf trail)) =
          beneath (addressOf trail) (Tree.node l (c :: cs)).survey ++ rightOf trail
      rw [Tree.survey_node, under, ← beneath_beneath, ← List.append_assoc, ← beneath_append]
      simp [beneath]
  | leaving c =>
    obtain ⟨t, trail⟩ := c
    cases trail with
    | nil => rfl
    | cons b trail =>
      obtain ⟨l, before, after⟩ := b
      cases after with
      | nil => simp [next, nextSibling?, parent?, visit, ahead, rightOf, under, beneath]
      | cons a after =>
        show beneath (addressOf trail ++ [before.length + 1]) a.survey ++
          (beneath (addressOf trail) (under Tree.survey (before.length + 1 + 1) after) ++
            rightOf trail) =
          beneath (addressOf trail) (under Tree.survey (before.length + 1) (a :: after)) ++
            rightOf trail
        rw [under, beneath_append, beneath_beneath, List.append_assoc]
  | finished => rfl

theorem toGo_next (s : Stage) : s.next.toGo = s.toGo - 1 := by
  cases s with
  | arriving c =>
    obtain ⟨⟨l, cs⟩, trail⟩ := c
    cases cs with
    | nil =>
      show 2 * pending trail + trail.length + 1 = 2 * (0 + 1 + pending trail) + trail.length - 1
      omega
    | cons c cs =>
      -- the second move of the parent is now the level to climb back
      show 2 * (c.size + (Tree.sizeAll cs + pending trail)) + (trail.length + 1) =
        2 * (c.size + Tree.sizeAll cs + 1 + pending trail) + trail.length - 1
      omega
  | leaving c =>
    obtain ⟨t, trail⟩ := c
    cases trail with
    | nil => rfl
    | cons b trail =>
      obtain ⟨l, before, after⟩ := b
      cases after with
      | nil =>
        show 2 * pending trail + trail.length + 1 =
          2 * (0 + pending trail) + (trail.length + 1) + 1 - 1
        omega
      | cons a after =>
        show 2 * (a.size + (Tree.sizeAll after + pending trail)) + (trail.length + 1) =
          2 * (a.size + Tree.sizeAll after + pending trail) + (trail.length + 1) + 1 - 1
        omega
  | finished => rfl

theorem toGo_eq_zero_iff (s : Stage) : s.toGo = 0 ↔ s = finished := by
  cases s with
  | arriving c =>
    have hpos := size_pos c.focus
    simp only [toGo, remaining, reduceCtorEq, iff_false]
    omega
  | leaving c => simp [toGo]
  | finished => simp [toGo]

end Stage

/-! ### A whole tour -/

namespace Tour

/-- The tour of a tree, before it begins. -/
def start (t : Tree) : Tour :=
  ⟨.arriving (.top t), []⟩

/-- One move of a tour. -/
def advance (s : Tour) : Tour :=
  ⟨s.stage.next, s.visited ++ s.stage.visit⟩

theorem toGo_iterate (s : Tour) (k : Nat) : (advance^[k] s).stage.toGo = s.stage.toGo - k := by
  induction k with
  | zero => rfl
  | succ k ih =>
    rw [Function.iterate_succ_apply']
    show (advance^[k] s).stage.next.toGo = _
    rw [Stage.toGo_next, ih, Nat.sub_sub]

/-- What is visited and what is ahead stay the same in all. -/
theorem visited_append_ahead_iterate (s : Tour) (k : Nat) :
    (advance^[k] s).visited ++ (advance^[k] s).stage.ahead = s.visited ++ s.stage.ahead := by
  induction k with
  | zero => rfl
  | succ k ih =>
    rw [Function.iterate_succ_apply', ← ih]
    show ((advance^[k] s).visited ++ (advance^[k] s).stage.visit) ++
      (advance^[k] s).stage.next.ahead = _
    rw [List.append_assoc, Stage.visit_append_ahead_next]

/-- **A tour comes to an end**: after two moves for each node it is over and has visited the survey. -/
theorem iterate_advance_eq_finished_iff (t : Tree) (k : Nat) :
    advance^[k] (start t) = ⟨.finished, t.survey⟩ ↔ 2 * t.size ≤ k := by
  have hgo : (advance^[k] (start t)).stage.toGo = 2 * t.size - k := toGo_iterate (start t) k
  constructor
  · intro h
    rw [h] at hgo
    have hzero : 0 = 2 * t.size - k := hgo
    omega
  · intro h
    have hfinished : (advance^[k] (start t)).stage = .finished := by
      rw [← Stage.toGo_eq_zero_iff, hgo]
      omega
    -- nothing is ahead any more, so all of the survey has been visited
    have hvisited := visited_append_ahead_iterate (start t) k
    rw [hfinished] at hvisited
    have hsurvey : (advance^[k] (start t)).visited = t.survey := by
      simpa [Stage.ahead, start, Cursor.top, Cursor.rightOf, Cursor.addressOf] using hvisited
    rw [← hfinished, ← hsurvey]

end Tour

/-! ### What is found on the way -/

variable {src : Text} {t n : Tree} {d : Declaration}

theorem declaration?_eq_some_iff_kind : declaration? src n = some d ↔
    n.kind = .variableDeclarator ∧ Declaration.ofDeclarator? src n = some d := by
  rw [declaration?]
  split
  next hk => simp [hk]
  next hk => simp [hk]

/-- The declarations of a tree stand at the addresses of their declarators. -/
theorem inReadingOrder_declarations (src : Text) (t : Tree) :
    InReadingOrder (fun p d => ∃ n, t.at? p = some n ∧ declaration? src n = some d)
      (declarations src t) := by
  have h := t.chart_survey.filterMap (declaration? src)
  rw [Tree.map_snd_survey, ← declarations_eq_filterMap] at h
  exact h

/-- What is declared inside a declarator is found where that one is. -/
theorem mem_declarations_of_mem_preorder {d e : Declaration} (hd : d ∈ declarations src t)
    (hn : n ∈ d.declarator.preorder) (he : declaration? src n = some e) :
    e ∈ declarations src t := by
  obtain ⟨m, hm, hdm⟩ := mem_declarations.1 hd
  rw [declarator_of_declaration? hdm] at hn
  exact mem_declarations.2 ⟨n, Tree.mem_preorder_trans hn hm, he⟩

theorem Tree.WellSpaced.pairwise_declarations (h : t.WellSpaced) (src : Text) :
    (declarations src t).Pairwise fun d e => d.declarator.start ≤ e.declarator.start := by
  rw [declarations_eq_filterMap]
  refine h.pairwise_start.filterMap _ ?_
  intro m n hle d hd e he
  rw [declarator_of_declaration? hd, declarator_of_declaration? he]
  exact hle

/-- **The tour is complete, and so is what it finds.**  Wherever in a tree it starts, the tour is over after
two moves for each node of its subtree.  It has then visited what stands at or below its start, each
address once and in reading order, and nothing else.  These are the nodes of the walk, so exactly the
declarators among them that declare a component are found, in that order, also those inside the type or
the value of another one.  If spans are nested and ordered, they come in the order of their starts. -/
theorem tour_complete (src : Text) (t start : Tree) (p : Address) (h : t.at? p = some start) :
    (∃ visited, (∀ k, Tour.advance^[k] (.start start) = ⟨.finished, visited⟩ ↔ 2 * start.size ≤ k) ∧
      Chart (fun q n => t.at? (p ++ q) = some n) visited ∧ (visited.map Prod.fst).Nodup ∧
      visited.map Prod.snd = (Cursor.top start).walk) ∧
    InReadingOrder (fun q d => ∃ n, t.at? (p ++ q) = some n ∧ n.kind = .variableDeclarator ∧
      Declaration.ofDeclarator? src n = some d) (declarations src start) ∧
    (∀ d ∈ declarations src start, ∀ n, n ∈ d.ascription.preorder ∨ n ∈ d.value.preorder →
      n.kind = .variableDeclarator → ∀ e, Declaration.ofDeclarator? src n = some e →
        e ∈ declarations src start) ∧
    (start.WellSpaced →
      (declarations src start).Pairwise fun d e => d.declarator.start ≤ e.declarator.start) := by
  have hat : ∀ q, t.at? (p ++ q) = start.at? q := by
    intro q
    rw [Tree.at?_append, h, Option.bind_some]
  simp only [hat, ← declaration?_eq_some_iff_kind]
  refine ⟨⟨start.survey, ?_, start.chart_survey, start.chart_survey.nodup, ?_⟩,
    inReadingOrder_declarations src start, ?_, ?_⟩
  · exact Tour.iterate_advance_eq_finished_iff start
  · rw [Tree.map_snd_survey, Cursor.walk_top]
  · intro d hd n hn hk e he
    obtain ⟨m, -, hdm⟩ := mem_declarations.1 hd
    obtain ⟨type, leading, hdeclared⟩ := declaration?_eq_some_iff.1 hdm
    have hinside : n ∈ d.declarator.preorder := by
      rw [hdeclared.declarator]
      rcases hn with hn | hn
      · exact Tree.mem_preorder_of_mem_children (Tree.mem_of_field? hdeclared.ascription) hn
      · exact Tree.mem_preorder_of_mem_children (Tree.mem_of_field? hdeclared.value) hn
    exact mem_declarations_of_mem_preorder hd hinside (declaration?_eq_some_iff_kind.2 ⟨hk, he⟩)
  · intro hspaced
    exact hspaced.pairwise_declarations src

open Concrete in
/-- The source `const X: FC<P> = p => {const Y: SFC = q => q}, Z: FC = r => r`. -/
def household : Concrete :=
  constants [declarator "X" (application "FC" (leaf .typeIdentifier none "P"))
      (arrow (some .value) "p" (branch (.other "statement_block") (some (.other "body")) [token "\x7b",
        branch (.other "lexical_declaration") none [token "const", space,
          declarator "Y" (leaf .typeIdentifier none "SFC")
            (arrow (some .value) "q" (leaf .identifier (some (.other "body")) "q"))],
        token "\x7d"])),
    token ",", space,
    declarator "Z" (leaf .typeIdentifier none "FC")
      (arrow (some .value) "r" (leaf .identifier (some (.other "body")) "r"))]

/-- The tour of the declaration visits its 42 nodes in 84 moves and finds three components, the second of
them inside the value of the first. -/
theorem household_toured :
    ∃ start, household.tree.at? [0] = some start ∧ start.WellSpaced ∧ start.size = 42 ∧
      (∃ visited, Tour.advance^[84] (.start start) = ⟨.finished, visited⟩ ∧
        visited.map Prod.snd = (Cursor.top start).walk) ∧
      ∃ x y z, declarations household.text start = [x, y, z] ∧
        x.value.at? [2, 1, 1] = some y.declarator ∧
        x.declarator.start ≤ y.declarator.start ∧ y.declarator.start ≤ z.declarator.start := by
  obtain ⟨start, hstart, hspaced, hsize, x, y, z, hfound, hinside⟩ :
      ∃ start, household.tree.at? [0] = some start ∧ start.WellSpaced ∧ start.size = 42 ∧
        ∃ x y z, declarations household.text start = [x, y, z] ∧
          x.value.at? [2, 1, 1] = some y.declarator := by
    refine ⟨_, rfl, by decide, by decide, ?_⟩
    simp only [declarations_eq_filterMap]
    exact ⟨_, _, _, rfl, rfl⟩
  obtain ⟨⟨visited, hfinished, -, -, hwalk⟩, -, -, hstarts⟩ :=
    tour_complete household.text household.tree start [0] hstart
  have hsorted := hstarts hspaced
  rw [hfound, List.pairwise_cons, List.pairwise_cons] at hsorted
  obtain ⟨hx, hy, -⟩ := hsorted
  refine ⟨start, hstart, hspaced, hsize, ⟨visited, (hfinished 84).2 (by omega), hwalk⟩,
    x, y, z, hfound, hinside, ?_, ?_⟩
  · exact hx y List.mem_cons_self
  · exact hy z List.mem_cons_self

end PlainComponents
