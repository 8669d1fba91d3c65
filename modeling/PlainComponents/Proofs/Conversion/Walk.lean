import PlainComponents.Proofs.Component.Declared
import PlainComponents.Proofs.Text.Splice
import PlainComponents.Proofs.Tree.Concrete

/-!
# Converting a tree by one walk

The conversion collects a flat list of edits.  Seen from the tree it is a single walk that copies
every node and every gap, with two exceptions:

* between the name of a declared component and the end of its annotation everything is left out;
* the function of a component with props gets them at its first parameter.

`rebuild` is that walk.  The second exception concerns a node far below the declarator, so the walk
hands a `Task` down: from the value through parentheses and first arguments to the function, from there
to the parameter list and its first entry.  A `Scan` says how the children of one node are gone through,
and `Scan.step` what happens to the next child; this is the only place where the walk decides anything.

What is written at the parameter is a parameter of the walk itself (`note`), so that it may be plain text
or a tree of its own.

`marks` goes the same way and notes what is changed: the edits in the order in which they are met, and
the subtrees that are left out.  `splices_rebuild` ties the two together: the text of the walk is the
splice of the edits that it meets.
-/

namespace PlainComponents

/-! ### Tasks and scans -/

/-- What is asked of a node from above. -/
inductive Task where
  /-- Nothing. -/
  | keep
  /-- To annotate the function that the node is or wraps. -/
  | function (note : Concrete)
  /-- To annotate the function in the first argument. -/
  | arguments (note : Concrete)
  /-- To annotate the first parameter of the list. -/
  | list (note : Concrete)
  /-- To annotate the parameter. -/
  | parameter (note : Concrete)
  /-- To give way to the annotation. -/
  | replaced (note : Concrete)
  /-- To be followed by the annotation. -/
  | followed (note : Concrete)
  /-- To be put in parentheses with the annotation. -/
  | wrapped (note : Concrete)

/-- How the children of a node are gone through. -/
inductive Scan where
  /-- All are kept. -/
  | keep
  /-- The first that passes the test gets the task, the others are kept. -/
  | seek (test : Tree → Bool) (task : Task)
  /-- Up to the name of a declarator all are kept. -/
  | toName (note : Option Concrete)
  /-- From the end `pos` of the name up to the type all are left out. -/
  | toType (pos : Nat) (note : Option Concrete)

/-- What happens to a child. -/
inductive Move where
  | visit (task : Task)
  /-- It is left out, with the gap before it. -/
  | drop
  /-- It is the last one left out of those that follow `pos`. -/
  | cut (pos : Nat)

namespace Scan

/-- Behind the type of a declarator: the function in the value is annotated, if there are props. -/
def toValue : Option Concrete → Scan
  | none => keep
  | some note => seek (Tree.plays .value) (.function note)

/-- What happens to the next child, and how to go on. -/
def step : Scan → Tree → Move × Scan
  | keep, _ => (.visit .keep, keep)
  | seek test task, c => if test c then (.visit task, keep) else (.visit .keep, seek test task)
  | toName note, c => (.visit .keep, if c.plays .name then toType c.stop note else toName note)
  | toType pos note, c => if c.plays .type then (.cut pos, toValue note) else (.drop, toType pos note)

end Scan

/-- How a node that declares no component goes about its task. -/
def Task.scan : Task → Tree → Scan
  | function note, t =>
    if t.kind.isFunction then
      if (t.field? .parameter).isSome then .seek (Tree.plays .parameter) (.wrapped note)
      else .seek (Tree.plays .parameters) (.list note)
    else if t.kind = .parenthesizedExpression then .seek Tree.isProper (.function note)
    else if t.kind = .callExpression then .seek (Tree.plays .arguments) (.arguments note)
    else .keep
  | arguments note, t =>
    if t.kind = .arguments then .seek Tree.isProper (.function note) else .keep
  | list note, t =>
    if t.kind = .formalParameters then .seek Tree.isProper (.parameter note) else .keep
  | parameter note, t =>
    if t.kind = .requiredParameter ∨ t.kind = .optionalParameter then
      if (t.field? .type).isSome then .seek (Tree.plays .type) (.replaced note)
      else if (t.token? (.other "?")).isSome then .seek (Tree.isToken (.other "?")) (.followed note)
      else .seek (Tree.plays .pattern) (.followed note)
    else .keep
  | _, _ => .keep

/-- How the children of a node are gone through. -/
def scan (src : Text) (note : Tree → Concrete) (task : Task) (t : Tree) : Scan :=
  match declaration? src t with
  | some d => .toName (d.props.map note)
  | none => task.scan t

/-! ### The walk -/

/-- The same tree in another part. -/
def Concrete.playing (f : Field) : Concrete → Concrete
  | gap t => gap t
  | node l ps => node { l with field := some f } ps

@[simp] theorem Concrete.text_playing (f : Field) (c : Concrete) : (c.playing f).text = c.text := by
  cases c <;> rfl

/-- What stands in the place of a node, where `copy` is the node with its children rebuilt. -/
def Task.finish (src : Text) (t : Tree) (copy : Concrete) : Task → List Concrete
  | replaced note => [note]
  | followed note => [copy, note]
  | wrapped note => [.parameterList ((t.concrete src).playing .pattern) note]
  | _ => [copy]

section Walk

variable (src : Text) (note : Tree → Concrete)

mutual

/-- The walk over a node. -/
def rebuild : Task → Tree → List Concrete
  | task, .node l cs =>
    task.finish src (.node l cs)
      (.node l (rebuildAll (scan src note task (.node l cs)) l.start cs l.stop))

/-- The walk over nodes that stand between two offsets. -/
def rebuildAll : Scan → Nat → List Tree → Nat → List Concrete
  | _, pos, [], stop => [.gap (src.slice pos stop)]
  | s, pos, c :: cs, stop =>
    match s.step c with
    | (.visit task, next) =>
      .gap (src.slice pos c.start) :: (rebuild task c ++ rebuildAll next c.stop cs stop)
    | (_, next) => rebuildAll next c.stop cs stop

end

/-- A whole source after the walk: what stands before and after the tree is kept. -/
def document (t : Tree) : List Concrete :=
  .gap (src.slice 0 t.start) :: (rebuild src note .keep t ++
    [.gap (src.slice t.stop src.byteLength)])

end Walk

/-! ### What the walk changes -/

/-- A change: an edit of the source, or a subtree that is left out. -/
inductive Mark where
  | edit (e : Edit)
  | skipped (t : Tree)

/-- The edits among the changes. -/
def Mark.edits (ms : List Mark) : List Edit :=
  ms.filterMap fun
    | edit e => some e
    | skipped _ => none

/-- The changes at a node, where `inner` are those below it. -/
def Task.frame (src : Text) (t : Tree) (inner : List Mark) : Task → List Mark
  | replaced note => [.edit ⟨t.start, t.stop, note.text⟩, .skipped t]
  | followed note => inner ++ [.edit ⟨t.stop, t.stop, note.text⟩]
  | wrapped note =>
    [.edit ⟨t.start, t.stop, ['('] ++ t.text src ++ note.text ++ [')']⟩, .skipped t]
  | _ => inner

section Marks

variable (src : Text) (plan : Task → Tree → Scan)

mutual

/-- The changes that a walk over a node makes if it goes through the children by `plan`. -/
def marks : Task → Tree → List Mark
  | task, .node l cs => task.frame src (.node l cs) (marksAll (plan task (.node l cs)) cs)

/-- The changes that the walk over a list makes. -/
def marksAll : Scan → List Tree → List Mark
  | _, [] => []
  | s, c :: cs =>
    match s.step c with
    | (.visit task, next) => marks task c ++ marksAll next cs
    | (.drop, next) => .skipped c :: marksAll next cs
    | (.cut pos, next) => .skipped c :: .edit (.deletion pos c.stop) :: marksAll next cs

end

end Marks

namespace Mark

@[simp] theorem edits_nil : edits [] = [] := rfl

@[simp] theorem edits_append (ms ns : List Mark) : edits (ms ++ ns) = edits ms ++ edits ns := by
  simp [edits, List.filterMap_append]

@[simp] theorem edits_cons_edit (e : Edit) (ms : List Mark) :
    edits (edit e :: ms) = e :: edits ms := rfl

@[simp] theorem edits_cons_skipped (t : Tree) (ms : List Mark) :
    edits (skipped t :: ms) = edits ms := rfl

end Mark

/-! ### Steps -/

namespace Scan

/-- Where the text that is still to be accounted for begins: at the end of the name while children are
left out, else at the end of the last child. -/
def anchor (pos : Nat) : Scan → Nat
  | toType p _ => p
  | _ => pos

/-- A child is visited, or one is left out after the name of a declarator. -/
theorem step_cases (s : Scan) (c : Tree) :
    (∃ task next, s.step c = (.visit task, next) ∧ (∀ pos, s.anchor pos = pos) ∧
      next.anchor c.stop = c.stop) ∨
    (∃ pos note, s = toType pos note ∧ c.plays .type = false ∧
      s.step c = (.drop, toType pos note)) ∨
    (∃ pos note, s = toType pos note ∧ c.plays .type = true ∧
      s.step c = (.cut pos, toValue note)) := by
  cases s with
  | keep => exact .inl ⟨.keep, keep, rfl, fun _ => rfl, rfl⟩
  | seek test task =>
    by_cases h : test c
    · exact .inl ⟨task, keep, by simp [step, h], fun _ => rfl, rfl⟩
    · exact .inl ⟨.keep, seek test task, by simp [step, h], fun _ => rfl, rfl⟩
  | toName note =>
    by_cases h : c.plays .name
    · exact .inl ⟨.keep, toType c.stop note, by simp [step, h], fun _ => rfl, rfl⟩
    · exact .inl ⟨.keep, toName note, by simp [step, h], fun _ => rfl, rfl⟩
  | toType pos note =>
    by_cases h : c.plays .type
    · exact .inr (.inr ⟨pos, note, rfl, h, by simp [step, h]⟩)
    · exact .inr (.inl ⟨pos, note, rfl, by simpa using h, by simp [step, h]⟩)

theorem anchor_toValue (note : Option Concrete) (pos : Nat) : (toValue note).anchor pos = pos := by
  cases note <;> rfl

/-- What is left out ends: behind the name there is a type. -/
def Closes : Scan → List Tree → Prop
  | toName _, cs => ∃ pre c post, cs = pre ++ c :: post ∧ (∀ x ∈ pre, x.plays .name = false) ∧
      c.plays .name = true ∧ ∃ y ∈ post, y.plays .type = true
  | toType _ _, cs => ∃ y ∈ cs, y.plays .type = true
  | _, _ => True

theorem closes_toValue (note : Option Concrete) (cs : List Tree) : (toValue note).Closes cs := by
  cases note <;> trivial

theorem Closes.step {s : Scan} {c : Tree} {cs : List Tree} (h : s.Closes (c :: cs)) :
    (s.step c).2.Closes cs := by
  cases s with
  | keep => trivial
  | seek test task =>
    by_cases ht : test c <;> simp [Scan.step, ht, Closes]
  | toName note =>
    obtain ⟨pre, d, post, hcs, hpre, hd, hy⟩ := h
    cases pre with
    | nil =>
      obtain ⟨rfl, rfl⟩ := List.cons.inj hcs
      simpa [Scan.step, hd, Closes] using hy
    | cons x pre =>
      obtain ⟨rfl, rfl⟩ := List.cons.inj hcs
      have hx := hpre c List.mem_cons_self
      have hpre : ∀ x ∈ pre, x.plays .name = false :=
        fun x hx => hpre x (List.mem_cons_of_mem _ hx)
      simpa [Scan.step, hx, Closes] using ⟨pre, d, post, rfl, hpre, hd, hy⟩
  | toType pos note =>
    by_cases ht : c.plays .type
    · simpa [Scan.step, ht] using closes_toValue note cs
    · obtain ⟨y, hy, hyt⟩ := h
      rcases List.mem_cons.1 hy with rfl | hy
      · exact absurd hyt ht
      · simpa [Scan.step, ht, Closes] using ⟨y, hy, hyt⟩

theorem Closes.anchor_nil {s : Scan} (h : s.Closes []) (pos : Nat) : s.anchor pos = pos := by
  cases s with
  | toType p note =>
    obtain ⟨y, hy, -⟩ := h
    cases hy
  | _ => rfl

end Scan

theorem Task.closes_scan (task : Task) (t : Tree) (cs : List Tree) : (task.scan t).Closes cs := by
  cases task <;> simp only [Task.scan] <;> (repeat' split) <;> trivial

/-- In a parsed tree the children of every node are gone through to the end. -/
theorem closes_scan {src : Text} {t : Tree} (note : Tree → Concrete) (ht : t.Parsed) (task : Task) :
    (scan src note task t).Closes t.children := by
  unfold scan
  split
  next d hd =>
    obtain ⟨type, leading, hd⟩ := declaration?_eq_some_iff.1 hd
    have hp := (ht.declarators t t.mem_preorder_self hd.kind).1
    obtain ⟨pre, mid, post, hcs, hpre, -, -⟩ := hp.exists_split hd.name hd.ascription
    refine ⟨pre, d.name, mid ++ d.ascription :: post, hcs, hpre,
      Tree.plays_iff.2 (Tree.field_of_field? hd.name), d.ascription, by simp,
      Tree.plays_iff.2 (Tree.field_of_field? hd.ascription)⟩
  next => exact task.closes_scan t t.children

theorem anchor_scan (src : Text) (note : Tree → Concrete) (task : Task) (t : Tree) (pos : Nat) :
    (scan src note task t).anchor pos = pos := by
  unfold scan
  split
  · rfl
  · cases task <;> simp only [Task.scan] <;> (repeat' split) <;> rfl

/-! ### The walk is a splice -/

section Splice

open Edit Mark Concrete

variable {src : Text} {note : Tree → Concrete}

/-- The changes between two offsets are in order, on boundaries, and give the text of the walk. -/
structure Splices (src : Text) (pos : Nat) (ms : List Mark) (stop : Nat) (ps : List Concrete) :
    Prop where
  fits : Fits pos (edits ms) stop
  boundaries : OnBoundaries src (edits ms)
  text : textAll ps = splice src pos (edits ms) stop

theorem Splices.append {pos mid stop : Nat} {ms ns : List Mark} {ps qs : List Concrete}
    (h : Splices src pos ms mid ps) (h' : Splices src mid ns stop qs) (hpos : src.isBoundary pos)
    (hmid : src.isBoundary mid) (hstop : src.isBoundary stop) :
    Splices src pos (ms ++ ns) stop (ps ++ qs) where
  fits := by
    rw [edits_append]
    exact h.fits.append h'.fits
  boundaries := by
    rw [edits_append]
    intro e he
    rcases List.mem_append.1 he with he | he
    · exact h.boundaries e he
    · exact h'.boundaries e he
  text := by
    rw [edits_append, textAll_append, h.text, h'.text]
    exact splice_append h.fits h'.fits h.boundaries h'.boundaries hpos hmid hstop

theorem Splices.gap {pos stop : Nat} (h : pos ≤ stop) :
    Splices src pos [] stop [.gap (src.slice pos stop)] where
  fits := h
  boundaries := by
    intro e he
    cases he
  text := by simp [splice]

theorem Splices.edit {e : Edit} {ps : List Concrete} (h : e.start ≤ e.stop)
    (hb : src.isBoundary e.start ∧ src.isBoundary e.stop) (hp : textAll ps = e.text)
    (ms : List Mark) (hms : edits ms = []) : Splices src e.start (.edit e :: ms) e.stop ps where
  fits := by
    rw [edits_cons_edit, hms]
    exact ⟨Nat.le_refl _, h, Nat.le_refl _⟩
  boundaries := by
    rw [edits_cons_edit, hms]
    intro f hf
    obtain rfl := List.mem_singleton.1 hf
    exact hb
  text := by
    rw [edits_cons_edit, hms, hp]
    simp [splice]

/-- What a task does to a node, once the children are done. -/
theorem Splices.finish {t : Tree} {ms : List Mark} {ps : List Concrete}
    (h : Splices src t.start ms t.stop ps) (task : Task) (ht : t.start ≤ t.stop)
    (hb : src.isBoundary t.start ∧ src.isBoundary t.stop)
    (hcopy : (t.concrete src).text = t.text src) :
    Splices src t.start (task.frame src t ms) t.stop
      (task.finish src t (.node t.label ps)) := by
  have hnode : Splices src t.start ms t.stop [.node t.label ps] :=
    ⟨h.fits, h.boundaries, by simpa using h.text⟩
  cases task with
  | replaced n => exact .edit (e := ⟨t.start, t.stop, n.text⟩) ht hb (by simp [Task.finish]) _ rfl
  | followed n =>
    have hn : Splices src t.stop [.edit ⟨t.stop, t.stop, n.text⟩] t.stop [n] :=
      .edit (e := ⟨t.stop, t.stop, n.text⟩) (Nat.le_refl _) ⟨hb.2, hb.2⟩ (by simp) [] rfl
    exact hnode.append hn hb.1 hb.2 hb.2
  | wrapped n =>
    refine .edit (e := ⟨t.start, t.stop, ['('] ++ t.text src ++ n.text ++ [')']⟩) ht hb ?_ _ rfl
    simp [Task.finish, parameterList, token, branch, hcopy]
  | _ => exact hnode

/-- Over a list of children: from the statement for each child, by induction along the scan. -/
theorem splices_rebuildAll {cs : List Tree} {pos stop : Nat} {s : Scan} (hclose : s.Closes cs)
    (hs : Tree.Spaced pos cs stop) (hanchor : s.anchor pos ≤ pos)
    (hb : ∀ c ∈ cs, src.isBoundary c.start ∧ src.isBoundary c.stop)
    (ba : src.isBoundary (s.anchor pos)) (bp : src.isBoundary pos) (bs : src.isBoundary stop)
    (ih : ∀ c ∈ cs, ∀ task,
      Splices src c.start (marks src (scan src note) task c) c.stop (rebuild src note task c)) :
    Splices src (s.anchor pos) (marksAll src (scan src note) s cs) stop
      (rebuildAll src note s pos cs stop) := by
  induction cs generalizing pos s with
  | nil =>
    rw [hclose.anchor_nil]
    exact .gap hs
  | cons c cs ihcs =>
    obtain ⟨h₁, h₂, h₃⟩ := hs
    have hc := hb c List.mem_cons_self
    have hb' : ∀ d ∈ cs, src.isBoundary d.start ∧ src.isBoundary d.stop :=
      fun d hd => hb d (List.mem_cons_of_mem _ hd)
    have ih' : ∀ d ∈ cs, ∀ task,
        Splices src d.start (marks src (scan src note) task d) d.stop (rebuild src note task d) :=
      fun d hd => ih d (List.mem_cons_of_mem _ hd)
    have hnext := hclose.step
    rcases s.step_cases c with ⟨task, next, hstep, hpos, hstop⟩ | ⟨p, n, rfl, -, hstep⟩ |
      ⟨p, n, rfl, -, hstep⟩
    · -- the gap before the child, the child, and the rest meet at the ends of the child
      rw [hstep] at hnext
      have hrest := ihcs hnext h₃ (Nat.le_of_eq hstop) hb' (by rw [hstop]; exact hc.2) hc.2 ih'
      rw [hstop] at hrest
      rw [hpos] at ba ⊢
      have hchild := (ih c List.mem_cons_self task).append hrest hc.1 hc.2 bs
      have h := (Splices.gap h₁).append hchild bp hc.1 bs
      simpa only [marksAll, rebuildAll, hstep, List.nil_append, List.singleton_append] using h
    · -- nothing is written, and the anchor stays at the end of the name
      rw [hstep] at hnext
      have hle : p ≤ pos := hanchor
      have hrest := ihcs hnext h₃ (by simp only [Scan.anchor]; omega) hb' ba hc.2 ih'
      constructor
      · simpa only [marksAll, hstep, edits_cons_skipped, Scan.anchor] using hrest.fits
      · simpa only [marksAll, hstep, edits_cons_skipped] using hrest.boundaries
      · simpa only [marksAll, rebuildAll, hstep, edits_cons_skipped, Scan.anchor] using hrest.text
    · rw [hstep] at hnext
      have hle : p ≤ pos := hanchor
      have hanchor' := Scan.anchor_toValue n c.stop
      have hrest := ihcs hnext h₃ (Nat.le_of_eq hanchor') hb' (by rw [hanchor']; exact hc.2) hc.2 ih'
      rw [hanchor'] at hrest
      -- the removal takes everything from the end of the name to the end of this child
      have hcut : Splices src p [.skipped c, .edit (.deletion p c.stop)] c.stop [] := by
        have hp : p ≤ c.stop := by omega
        have h : Splices src p [.edit (.deletion p c.stop)] c.stop [] :=
          .edit (e := .deletion p c.stop) hp ⟨ba, hc.2⟩ rfl [] rfl
        exact ⟨h.fits, h.boundaries, h.text⟩
      have h := hcut.append hrest ba hc.2 bs
      simpa only [marksAll, rebuildAll, hstep, Scan.anchor, List.cons_append, List.nil_append] using h

/-- **The text of the walk is the splice of the edits that it meets.** -/
theorem splices_rebuild (note : Tree → Concrete) {t : Tree} (ht : t.Parsed)
    (hb : t.OnBoundaries src) (task : Task) :
    Splices src t.start (marks src (scan src note) task t) t.stop (rebuild src note task t) := by
  induction t using Tree.inductionOn generalizing task with
  | node l cs ih =>
    have hl := hb _ (Tree.mem_preorder_self _)
    have hcs : ∀ c ∈ cs, src.isBoundary c.start ∧ src.isBoundary c.stop :=
      fun c hc => hb c (Tree.child_mem_preorder hc)
    have hchildren : ∀ c ∈ cs, ∀ task,
        Splices src c.start (marks src (scan src note) task c) c.stop (rebuild src note task c) :=
      fun c hc => ih c hc (ht.of_child hc) (hb.of_mem (Tree.child_mem_preorder hc))
    have hstart := anchor_scan src note task (.node l cs)
    have hcopy := splices_rebuildAll (closes_scan note ht task) ht.spaced.children
      (Nat.le_of_eq (hstart _)) hcs (by rw [hstart]; exact hl.1) hl.1 hl.2 hchildren
    rw [hstart] at hcopy
    rw [marks, rebuild]
    exact hcopy.finish task ht.spaced.le hl (Tree.text_concrete ht.spaced hb)

end Splice

end PlainComponents
