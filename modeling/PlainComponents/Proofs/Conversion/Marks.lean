import Mathlib.Data.List.Flatten
import PlainComponents.Proofs.Component.AllOrNothing
import PlainComponents.Proofs.Conversion.Walk

/-!
# What each component contributes to the walk

The walk meets the edits of all components interleaved; the conversion queues them component by
component.  Here the two lists are compared.

* `componentMarks` are the changes for one component: the walk over its declarator with no other
  component in sight.  Their edits are those that the component gets by itself (`edits_componentMarks`).
* A component that stands in a subtree that is left out is never visited.  `Mark.expand` counts its
  edits nevertheless, and then nothing is lost: the changes of the whole walk, expanded, are the edits
  of all the components (`perm_expand_marks`).
* Whatever is left out is covered by an edit (`covered_marks`).  So if no two edits clash, no component
  was left out (`plain_of_skipped`).
-/

namespace PlainComponents

open Declaration

/-! ### Changes with what is left out -/

namespace Mark

/-- The changes, where a subtree that is left out is followed by those for its nodes. -/
def expand (own : Tree → List Mark) (ms : List Mark) : List Mark :=
  ms.flatMap fun
    | edit e => [edit e]
    | skipped t => skipped t :: t.preorder.flatMap own

variable {own : Tree → List Mark}

@[simp] theorem expand_nil : expand own [] = [] := rfl

@[simp] theorem expand_append (ms ns : List Mark) :
    expand own (ms ++ ns) = expand own ms ++ expand own ns := by
  simp [expand]

@[simp] theorem expand_cons_edit (e : Edit) (ms : List Mark) :
    expand own (edit e :: ms) = edit e :: expand own ms := by
  simp [expand]

@[simp] theorem expand_cons_skipped (t : Tree) (ms : List Mark) :
    expand own (skipped t :: ms) = skipped t :: (t.preorder.flatMap own ++ expand own ms) := by
  simp [expand]

theorem mem_expand {m : Mark} {ms : List Mark} (h : m ∈ ms) : m ∈ expand own ms := by
  refine List.mem_flatMap.2 ⟨m, h, ?_⟩
  cases m <;> exact List.mem_cons_self

/-- If nothing of interest is left out, expanding adds nothing. -/
theorem expand_eq_self {ms : List Mark}
    (h : ∀ t, skipped t ∈ ms → t.preorder.flatMap own = []) : expand own ms = ms := by
  induction ms with
  | nil => rfl
  | cons m ms ih =>
    have hms := ih fun t ht => h t (List.mem_cons_of_mem _ ht)
    cases m with
    | edit e => rw [expand_cons_edit, hms]
    | skipped t => rw [expand_cons_skipped, hms, h t List.mem_cons_self, List.nil_append]

theorem edits_map_skipped (ts : List Tree) : edits (ts.map skipped) = [] := by
  induction ts with
  | nil => rfl
  | cons t ts ih => rw [List.map_cons, edits_cons_skipped, ih]

theorem edits_perm {ms ns : List Mark} (h : ms.Perm ns) : (edits ms).Perm (edits ns) :=
  h.filterMap _

end Mark

open Mark

/-! ### A task by itself -/

section Alone

variable (src : Text)

theorem marksAll_keep {cs : List Tree} (h : ∀ c ∈ cs, marks src Task.scan .keep c = []) :
    marksAll src Task.scan .keep cs = [] := by
  induction cs with
  | nil => rfl
  | cons c cs ih =>
    simp only [marksAll, Scan.step, h c List.mem_cons_self,
      ih fun d hd => h d (List.mem_cons_of_mem _ hd), List.append_nil]

/-- Without a task and without components nothing changes. -/
@[simp] theorem marks_keep (t : Tree) : marks src Task.scan .keep t = [] := by
  induction t using Tree.inductionOn with
  | node l cs ih =>
    show marksAll src Task.scan .keep cs = []
    exact marksAll_keep src ih

/-- The first child that passes the test carries out the task. -/
theorem marksAll_seek (test : Tree → Bool) (task : Task) (cs : List Tree) :
    marksAll src Task.scan (.seek test task) cs =
      (cs.find? test).elim [] (marks src Task.scan task) := by
  induction cs with
  | nil => rfl
  | cons c cs ih =>
    by_cases h : test c
    · simp [marksAll, Scan.step, h, List.find?, marksAll_keep]
    · simp [marksAll, Scan.step, h, List.find?, ih]

theorem marksAll_toValue (note : Option Concrete) (cs : List Tree) :
    marksAll src Task.scan (.toValue note) cs =
      (note.bind fun n => (cs.find? (Tree.plays .value)).map
        (marks src Task.scan (.function n))).getD [] := by
  cases note with
  | none => exact marksAll_keep src fun c _ => marks_keep src c
  | some n =>
    rw [Scan.toValue, marksAll_seek]
    cases cs.find? (Tree.plays .value) <;> rfl

end Alone

section Declarator

variable (src : Text) (plan : Task → Tree → Scan) (note : Option Concrete)

/-- Behind the name of a declarator all is left out up to the type. -/
theorem marksAll_toType {mid : List Tree} {b : Tree} (pos : Nat) (post : List Tree)
    (hmid : ∀ x ∈ mid, x.plays .type = false) (hb : b.plays .type = true) :
    marksAll src plan (.toType pos note) (mid ++ b :: post) =
      mid.map skipped ++ skipped b :: edit (.deletion pos b.stop) ::
        marksAll src plan (.toValue note) post := by
  induction mid with
  | nil => simp [marksAll, Scan.step, hb]
  | cons x mid ih =>
    have hx := hmid x List.mem_cons_self
    have hmid := ih fun y hy => hmid y (List.mem_cons_of_mem _ hy)
    simp [marksAll, Scan.step, hx, hmid]

/-- Up to the name all is kept. -/
theorem marksAll_toName {pre : List Tree} {a : Tree} (rest : List Tree)
    (hpre : ∀ x ∈ pre, x.plays .name = false) (ha : a.plays .name = true) :
    marksAll src plan (.toName note) (pre ++ a :: rest) =
      marksAll src plan .keep pre ++ (marks src plan .keep a ++
        marksAll src plan (.toType a.stop note) rest) := by
  induction pre with
  | nil => simp [marksAll, Scan.step, ha]
  | cons x pre ih =>
    have hx := hpre x List.mem_cons_self
    have hpre := ih fun y hy => hpre y (List.mem_cons_of_mem _ hy)
    simp [marksAll, Scan.step, hx, hpre]

end Declarator

section Alone

/-! ### From the value to the parameter -/

variable {src : Text} {n : Concrete} {t : Tree}

theorem FunctionNode.isFunction_of_find? {f : FunctionNode} (h : FunctionNode.find? t = some f) :
    f.node.kind.isFunction = true := by
  induction t using Tree.strongInductionOn generalizing f with
  | node l cs ih =>
    rw [FunctionNode.find?] at h
    split at h
    next hk =>
      obtain rfl := Option.some.inj h
      simp [hk, Kind.isFunction]
    next hk =>
      obtain rfl := Option.some.inj h
      simp [hk, Kind.isFunction]
    next hk =>
      obtain rfl := Option.some.inj h
      simp [hk, Kind.isFunction]
    · rw [FunctionNode.findFirst?_eq] at h
      obtain ⟨c, hc, hf⟩ := Option.bind_eq_some_iff.1 h
      exact ih c (List.mem_of_find?_eq_some hc) c c.mem_preorder_self hf
    · rw [FunctionNode.findArgument?_eq] at h
      obtain ⟨g, hg, rfl⟩ := Option.map_eq_some_iff.1 h
      obtain ⟨a, ha, hga⟩ := Option.bind_eq_some_iff.1 hg
      split at hga
      · obtain ⟨c, hc, hgc⟩ := Option.bind_eq_some_iff.1 hga
        have hca := Tree.child_mem_preorder (Tree.mem_of_firstProper? hc)
        exact ih (f := g) a (List.mem_of_find?_eq_some ha) c hca hgc
      · cases hga
    · cases h

theorem marks_arguments (src : Text) (n : Concrete) (h : t.kind = .arguments) :
    marks src Task.scan (.arguments n) t =
      t.firstProper?.elim [] (marks src Task.scan (.function n)) := by
  obtain ⟨l, cs⟩ := t
  have h : l.kind = .arguments := h
  simp [marks, Task.frame, Task.scan, h, marksAll_seek, Tree.firstProper?]

/-- The task of the value is handed down to the function that it wraps. -/
theorem marks_function_of_find? {f : FunctionNode} (h : FunctionNode.find? t = some f) :
    marks src Task.scan (.function n) t = marks src Task.scan (.function n) f.node := by
  induction t using Tree.strongInductionOn generalizing f with
  | node l cs ih =>
    rw [FunctionNode.find?] at h
    split at h
    · obtain rfl := Option.some.inj h
      rfl
    · obtain rfl := Option.some.inj h
      rfl
    · obtain rfl := Option.some.inj h
      rfl
    next hk =>
      rw [FunctionNode.findFirst?_eq] at h
      obtain ⟨c, hc, hf⟩ := Option.bind_eq_some_iff.1 h
      rw [← ih c (List.mem_of_find?_eq_some hc) c c.mem_preorder_self hf]
      simp [marks, Task.frame, Task.scan, hk, Kind.isFunction, marksAll_seek, hc]
    next hk =>
      rw [FunctionNode.findArgument?_eq] at h
      obtain ⟨g, hg, rfl⟩ := Option.map_eq_some_iff.1 h
      obtain ⟨a, ha, hga⟩ := Option.bind_eq_some_iff.1 hg
      split at hga
      next hka =>
        obtain ⟨c, hc, hgc⟩ := Option.bind_eq_some_iff.1 hga
        have hca := Tree.child_mem_preorder (Tree.mem_of_firstProper? hc)
        have ha' : cs.find? (Tree.plays .arguments) = some a := ha
        have hfc := ih a (List.mem_of_find?_eq_some ha) c hca hgc
        have harg := marks_arguments src n hka
        rw [hc, Option.elim_some] at harg
        rw [FunctionNode.wrapped, ← hfc, ← harg]
        simp [marks, Task.frame, Task.scan, hk, Kind.isFunction, marksAll_seek, ha']
      · cases hga
    · cases h

theorem marks_function_bare {bare : Tree} (h : t.kind.isFunction = true)
    (hb : t.field? .parameter = some bare) :
    marks src Task.scan (.function n) t =
      [.edit ⟨bare.start, bare.stop, ['('] ++ bare.text src ++ n.text ++ [')']⟩, .skipped bare] := by
  obtain ⟨l, cs⟩ := t
  obtain ⟨bl, bs⟩ := bare
  have h : l.kind.isFunction = true := h
  have hfind : cs.find? (Tree.plays .parameter) = some (.node bl bs) := hb
  simp [marks, Task.frame, Task.scan, h, hb, marksAll_seek, hfind]

theorem marks_function_list {list : Tree} (h : t.kind.isFunction = true)
    (hb : t.field? .parameter = none) (hl : t.field? .parameters = some list)
    (hk : list.kind = .formalParameters) :
    marks src Task.scan (.function n) t =
      list.firstProper?.elim [] (marks src Task.scan (.parameter n)) := by
  obtain ⟨l, cs⟩ := t
  obtain ⟨ll, ls⟩ := list
  have h : l.kind.isFunction = true := h
  have hk : ll.kind = .formalParameters := hk
  have hfind : cs.find? (Tree.plays .parameters) = some (.node ll ls) := hl
  simp [marks, Task.frame, Task.scan, h, hb, hk, marksAll_seek, hfind, Tree.firstProper?]

/-- The last node of a parameter without a type, behind which the annotation is written. -/
theorem marks_followed (t : Tree) :
    marks src Task.scan (.followed n) t = [.edit ⟨t.stop, t.stop, n.text⟩] := by
  obtain ⟨l, cs⟩ := t
  simp [marks, Task.frame, Task.scan, marksAll_keep]

theorem marks_parameter_typed {type : Tree}
    (h : t.kind = .requiredParameter ∨ t.kind = .optionalParameter)
    (ht : t.field? .type = some type) :
    marks src Task.scan (.parameter n) t =
      [.edit ⟨type.start, type.stop, n.text⟩, .skipped type] := by
  obtain ⟨l, cs⟩ := t
  obtain ⟨tl, ts⟩ := type
  have h : l.kind = .requiredParameter ∨ l.kind = .optionalParameter := h
  have hfind : cs.find? (Tree.plays .type) = some (.node tl ts) := ht
  simp [marks, Task.frame, Task.scan, h, ht, marksAll_seek, hfind]

theorem marks_parameter_untyped {pattern : Tree}
    (h : t.kind = .requiredParameter ∨ t.kind = .optionalParameter)
    (ht : t.field? .type = none) (hp : t.field? .pattern = some pattern) :
    marks src Task.scan (.parameter n) t =
      marks src Task.scan (.followed n) ((t.token? (.other "?")).getD pattern) := by
  obtain ⟨l, cs⟩ := t
  have h : l.kind = .requiredParameter ∨ l.kind = .optionalParameter := h
  have hpattern : cs.find? (Tree.plays .pattern) = some pattern := hp
  cases hq : (Tree.node l cs).token? (.other "?") with
  | none => simp [marks, Task.frame, Task.scan, h, ht, hq, marksAll_seek, hpattern]
  | some question =>
    have hquestion : cs.find? (Tree.isToken (.other "?")) = some question := hq
    simp [marks, Task.frame, Task.scan, h, ht, hq, marksAll_seek, hquestion]

end Alone

/-! ### The children of a declarator -/

section Component

variable {src : Text} {note : Tree → Concrete} {t type leading : Tree} {d : Declaration}

/-- What precedes the first `f` has no `g` in it if `f` precedes `g`. -/
theorem Tree.Precedes.not_plays {f g : Field} {pre post : List Tree} {b : Tree}
    (h : t.Precedes f g) (hg : (t.field? g).isSome) (hcs : t.children = pre ++ b :: post)
    (hpre : ∀ x ∈ pre, x.plays f = false) (hb : b.plays f = true) :
    ∀ x ∈ pre, x.plays g = false := by
  have hf : (t.field? f).isSome := by
    rw [Tree.field?_eq_find?, hcs]
    simp [hb]
  have hlt := h hf hg
  rw [hcs, Tree.findIdx_append_cons post hpre hb] at hlt
  intro x hx
  obtain ⟨i, hi, rfl⟩ := List.mem_iff_getElem.1 hx
  have := List.not_of_lt_findIdx (Nat.lt_trans hi hlt)
  simpa [List.getElem_append_left hi] using this

/-- The children of a declared component in their order. -/
theorem Declaration.Declared.exists_children (hd : Declared src t d type leading) (ht : t.Parsed) :
    ∃ pre mid post, t.children = pre ++ d.name :: (mid ++ d.ascription :: post) ∧
      (∀ x ∈ pre, x.plays .name = false) ∧ (∀ x ∈ mid, x.plays .type = false) ∧
      (∀ x ∈ mid, x.plays .value = false) ∧ post.find? (Tree.plays .value) = some d.value := by
  obtain ⟨hname, hvalue⟩ := ht.declarators t t.mem_preorder_self hd.kind
  obtain ⟨pre, mid, post, hcs, hpre, hpre', hmid⟩ := hname.exists_split hd.name hd.ascription
  have htype := Tree.plays_iff.2 (Tree.field_of_field? hd.ascription)
  have hcs' : t.children = (pre ++ d.name :: mid) ++ d.ascription :: post := by
    rw [hcs, List.append_assoc, List.cons_append]
  have hbefore : ∀ x ∈ pre ++ d.name :: mid, x.plays .type = false := by
    intro x hx
    rcases List.mem_append.1 hx with hx | hx
    · exact hpre' x hx
    · rcases List.mem_cons.1 hx with rfl | hx
      · exact Tree.not_plays_of_plays (by decide) (Tree.plays_iff.2 (Tree.field_of_field? hd.name))
      · exact hmid x hx
  -- the value is behind the type, so the first one is the first one there
  have hnone := hvalue.not_plays (by rw [hd.value]; rfl) hcs' hbefore htype
  refine ⟨pre, mid, post, hcs, hpre, hmid, fun x hx => hnone x (by simp [hx]), ?_⟩
  have hfind := hd.value
  rw [Tree.field?_eq_find?, hcs', List.find?_append,
    List.find?_eq_none.2 fun x hx => by simp [hnone x hx], Option.none_or, List.find?_cons,
    Tree.not_plays_of_plays (by decide) htype] at hfind
  exact hfind

/-! ### The changes for one component -/

/-- The changes for the component that a node declares. -/
def componentMarks (src : Text) (note : Tree → Concrete) (t : Tree) : List Mark :=
  match declaration? src t with
  | some d => marksAll src Task.scan (.toName (d.props.map note)) t.children
  | none => []

theorem componentMarks_of_none (h : declaration? src t = none) : componentMarks src note t = [] := by
  rw [componentMarks, h]

theorem componentMarks_of_some (h : declaration? src t = some d) :
    componentMarks src note t =
      marksAll src Task.scan (.toName (d.props.map note)) t.children := by
  rw [componentMarks, h]

/-- First everything from the name to the type is left out, then the function is annotated. -/
theorem exists_componentMarks (note : Tree → Concrete) (ht : t.Parsed)
    (h : declaration? src t = some d) :
    ∃ pre mid post, t.children = pre ++ d.name :: (mid ++ d.ascription :: post) ∧
      (∀ x ∈ mid, x.plays .type = false) ∧ (∀ x ∈ mid, x.plays .value = false) ∧
      componentMarks src note t = mid.map skipped ++ skipped d.ascription :: edit d.removal ::
        d.props.elim [] fun p => marks src Task.scan (.function (note p)) d.value := by
  obtain ⟨type, leading, hd⟩ := declaration?_eq_some_iff.1 h
  obtain ⟨pre, mid, post, hcs, hpre, hmid, hmid', hvalue⟩ := hd.exists_children ht
  have hname := Tree.plays_iff.2 (Tree.field_of_field? hd.name)
  have htype := Tree.plays_iff.2 (Tree.field_of_field? hd.ascription)
  refine ⟨pre, mid, post, hcs, hmid, hmid', ?_⟩
  rw [componentMarks_of_some h, hcs, marksAll_toName src _ _ _ hpre hname,
    marksAll_keep src fun c _ => marks_keep src c, marks_keep, List.nil_append, List.nil_append,
    marksAll_toType src _ _ _ _ hmid htype, marksAll_toValue, hvalue]
  cases d.props <;> rfl

/-- What the walk writes for props in the tree reads as their annotation. -/
def Annotates (src : Text) (note : Tree → Concrete) (t : Tree) : Prop :=
  ∀ p ∈ t.preorder, ∀ props, PropsType.ofTree src p = .ok props →
    (note p).text = Parameter.ascription props

theorem Annotates.of_mem {n : Tree} (h : Annotates src note t) (hn : n ∈ t.preorder) :
    Annotates src note n :=
  fun p hp => h p (Tree.mem_preorder_trans hp hn)

/-- The edit at the first parameter is the one that the walk makes there. -/
theorem edits_marks_function {f : FunctionNode} {p : Tree} {props : PropsType}
    {first : Option (Parameter × Edit)} (ht : d.value.Parsed)
    (hf : FunctionNode.find? d.value = some f) (htext : (note p).text = Parameter.ascription props)
    (ha : Parameter.annotateFirst src props f.node = .ok first) :
    edits (marks src Task.scan (.function (note p)) d.value) = first.elim [] fun r => [r.2] := by
  have hk := FunctionNode.isFunction_of_find? hf
  have hlist := ht.parameters _ (FunctionNode.mem_preorder_of_find? hf) hk
  rw [marks_function_of_find? hf]
  cases first with
  | none =>
    obtain ⟨hbare, list, hl, hnone⟩ := Parameter.annotateFirst_eq_ok_none ha
    rw [marks_function_list hk hbare hl (by simpa [hl] using hlist), hnone]
    rfl
  | some r =>
    obtain ⟨q, e⟩ := r
    rcases Parameter.annotateFirst_eq_ok_some ha with
      ⟨bare, hbare, rfl⟩ | ⟨hbare, list, first, pattern, hl, hfirst, hkind, hpattern, rfl⟩
    · rw [marks_function_bare hk hbare, htext]
      rfl
    · rw [marks_function_list hk hbare hl (by simpa [hl] using hlist), hfirst, Option.elim_some]
      unfold Parameter.ascribe
      split
      next type htype =>
        rw [marks_parameter_typed hkind htype, htext]
        rfl
      next htype =>
        rw [marks_parameter_untyped hkind htype hpattern, marks_followed, htext]
        rfl

/-- The edits among the changes for a component are those that it gets by itself. -/
theorem edits_componentMarks {es : List Edit} (ht : t.Parsed) (hnote : Annotates src note t)
    (h : declaration? src t = some d) (he : d.edits src = .ok es) :
    es.Perm (edits (componentMarks src note t)) := by
  obtain ⟨pre, mid, post, -, -, -, hmarks⟩ := exists_componentMarks note ht h
  obtain ⟨type, leading, hd⟩ := declaration?_eq_some_iff.1 h
  have hvalue : d.value.Parsed := ht.of_child (Tree.mem_of_field? hd.value)
  have htext : ∀ {p props}, d.props = some p → PropsType.ofTree src p = .ok props →
      (note p).text = Parameter.ascription props := fun hp hprops =>
    hnote _ (Tree.mem_preorder_of_mem_children (Tree.mem_of_field? hd.ascription) (hd.props_mem hp))
      _ hprops
  rw [hmarks, edits_append, edits_map_skipped, List.nil_append, edits_cons_skipped, edits_cons_edit]
  cases edits_eq_ok he with
  | bare hp he => rw [hp, he]; exact .refl _
  | unused hp hprops hf ha he =>
    rw [hp, he, Option.elim_some, edits_marks_function hvalue hf (htext hp hprops) ha]
    exact .refl _
  | annotated hp hprops hf ha he =>
    rw [hp, he, Option.elim_some, edits_marks_function hvalue hf (htext hp hprops) ha]
    exact .swap _ _ _

end Component

/-! ### Nothing is lost -/

section Expand

variable {src : Text} {note : Tree → Concrete}

/-- Over a list of children: the walk does what the tasks ask for, and what the components below do. -/
theorem perm_expand_marksAll {own : Tree → List Mark} {cs : List Tree} {s : Scan}
    (ih : ∀ c ∈ cs, ∀ task, (expand own (marks src (scan src note) task c)).Perm
      (marks src Task.scan task c ++ c.preorder.flatMap own)) :
    (expand own (marksAll src (scan src note) s cs)).Perm
      (marksAll src Task.scan s cs ++ (cs.flatMap Tree.preorder).flatMap own) := by
  induction cs generalizing s with
  | nil => exact .refl _
  | cons c cs ihcs =>
    have hrest := ihcs (s := (s.step c).2) fun d hd => ih d (List.mem_cons_of_mem _ hd)
    rw [List.flatMap_cons, List.flatMap_append]
    rcases s.step_cases c with ⟨task, next, hstep, -, -⟩ | ⟨p, n, rfl, -, hstep⟩ |
      ⟨p, n, rfl, -, hstep⟩
    · -- what the child asks for moves in front of what is declared in it
      rw [hstep] at hrest
      simp only [marksAll, hstep, expand_append]
      refine ((ih c List.mem_cons_self task).append hrest).trans ?_
      rw [List.append_assoc, List.append_assoc]
      exact (List.perm_append_comm_assoc _ _ _).append_left _
    · rw [hstep] at hrest
      simp only [marksAll, hstep, expand_cons_skipped]
      exact .cons _ ((hrest.append_left _).trans (List.perm_append_comm_assoc _ _ _))
    · rw [hstep] at hrest
      simp only [marksAll, hstep, expand_cons_skipped, expand_cons_edit]
      refine .cons _ (List.perm_middle.trans (.cons _ ?_))
      exact (hrest.append_left _).trans (List.perm_append_comm_assoc _ _ _)

theorem Task.scan_of_declaration? {t : Tree} {d : Declaration} (h : declaration? src t = some d)
    (task : Task) : task.scan t = .keep := by
  have hk := kind_of_declaration? h
  cases task <;> simp [Task.scan, hk, Kind.isFunction, Kind.formalParameters]

/-- A task adds to the expanded changes what it adds to those that it asks for. -/
theorem perm_expand_frame {own : Tree → List Mark} {t : Tree} {inner alone : List Mark}
    (task : Task) (h : (expand own inner).Perm (alone ++ t.preorder.flatMap own)) :
    (expand own (task.frame src t inner)).Perm
      (task.frame src t alone ++ t.preorder.flatMap own) := by
  cases task with
  | replaced n => simp [Task.frame]
  | wrapped n => simp [Task.frame]
  | followed n =>
    simp only [Task.frame, expand_append, expand_cons_edit, expand_nil, List.append_assoc]
    refine (h.append_right _).trans ?_
    rw [List.append_assoc]
    exact List.perm_append_comm.append_left _
  | _ => exact h

/-- **The walk loses nothing**: its changes, with those for what is left out, are what the task asks
for and the changes for all the components. -/
theorem perm_expand_marks (src : Text) (note : Tree → Concrete) (task : Task) (t : Tree) :
    (expand (componentMarks src note) (marks src (scan src note) task t)).Perm
      (marks src Task.scan task t ++ t.preorder.flatMap (componentMarks src note)) := by
  induction t using Tree.inductionOn generalizing task with
  | node l cs ih =>
    rw [marks, marks]
    apply perm_expand_frame
    rw [Tree.preorder_node, List.flatMap_cons]
    have hcs := perm_expand_marksAll (s := scan src note task (.node l cs)) ih
    cases hd : declaration? src (.node l cs) with
    | none =>
      have hscan : scan src note task (.node l cs) = task.scan (.node l cs) := by rw [scan, hd]
      rw [componentMarks_of_none hd, ← hscan]
      exact hcs
    | some d =>
      -- the task does not concern a declarator, so all the changes are those for the component
      have hscan : scan src note task (.node l cs) = .toName (d.props.map note) := by
        rw [scan, hd]
      rw [Task.scan_of_declaration? hd, marksAll_keep src fun c _ => marks_keep src c,
        componentMarks_of_some hd]
      rw [hscan] at hcs ⊢
      exact hcs

/-- Over a whole tree there is no task, so all the changes are for components. -/
theorem perm_expand_root (src : Text) (note : Tree → Concrete) (t : Tree) :
    (expand (componentMarks src note) (marks src (scan src note) .keep t)).Perm
      (t.preorder.flatMap (componentMarks src note)) := by
  have h := perm_expand_marks src note .keep t
  rwa [marks_keep, List.nil_append] at h

/-- What is left out is left out for a component. -/
theorem exists_component_of_skipped {c t : Tree}
    (h : skipped c ∈ marks src (scan src note) .keep t) :
    ∃ n ∈ t.preorder, skipped c ∈ componentMarks src note n :=
  List.mem_flatMap.1 ((perm_expand_root src note t).mem_iff.1 (mem_expand h))

/-- The edits of the components, each judged by itself, are the edits for all the nodes. -/
theorem Judged.perm_componentMarks {ts : List Tree} {parts : List (List Edit)}
    (hts : ∀ t ∈ ts, t.Parsed ∧ Annotates src note t)
    (h : Judged src (ts.filterMap (declaration? src)) parts) :
    parts.flatten.Perm (edits (ts.flatMap (componentMarks src note))) := by
  induction ts generalizing parts with
  | nil =>
    cases h
    exact .refl _
  | cons t ts ih =>
    have hts' := fun t ht => hts t (List.mem_cons_of_mem _ ht)
    obtain ⟨ht, hnote⟩ := hts t List.mem_cons_self
    rw [List.flatMap_cons, edits_append]
    cases hd : declaration? src t with
    | none =>
      rw [List.filterMap_cons_none hd] at h
      rw [componentMarks_of_none hd]
      exact ih hts' h
    | some d =>
      rw [List.filterMap_cons_some hd] at h
      cases h with
      | cons hes hparts =>
        rw [alone_eq_edits] at hes
        exact (edits_componentMarks ht hnote hd hes).append (ih hts' hparts)

/-- The queued edits are those for all the nodes. -/
theorem Judged.perm_edits {tree : Tree} {parts : List (List Edit)} (hnote : Annotates src note tree)
    (ht : tree.Parsed) (h : Judged src (declarations src tree) parts) :
    parts.flatten.Perm (edits (tree.preorder.flatMap (componentMarks src note))) := by
  rw [declarations_eq_filterMap] at h
  exact h.perm_componentMarks fun t hmem => ⟨ht.of_mem hmem, hnote.of_mem hmem⟩

end Expand

/-! ### What is left out is covered -/

section Covered

variable {src : Text} {note : Tree → Concrete}

/-- Every subtree that is left out lies inside one of the edits. -/
def Mark.Covered (ms : List Mark) : Prop :=
  ∀ c, skipped c ∈ ms → ∃ e, (e.start ≤ c.start ∧ c.stop ≤ e.stop) ∧
    ([edit e, skipped c].Sublist ms ∨ [skipped c, edit e].Sublist ms)

theorem Mark.Covered.append {ms ns : List Mark} (h : Covered ms) (h' : Covered ns) :
    Covered (ms ++ ns) := by
  intro c hc
  rcases List.mem_append.1 hc with hc | hc
  · obtain ⟨e, he, hsub⟩ := h c hc
    exact ⟨e, he, hsub.imp (fun h => h.trans (List.sublist_append_left _ _))
      fun h => h.trans (List.sublist_append_left _ _)⟩
  · obtain ⟨e, he, hsub⟩ := h' c hc
    exact ⟨e, he, hsub.imp (fun h => h.trans (List.sublist_append_right _ _))
      fun h => h.trans (List.sublist_append_right _ _)⟩

theorem Mark.covered_edit (e : Edit) : Covered [edit e] := by
  intro c hc
  simp at hc

theorem Mark.covered_skipped {e : Edit} {c : Tree} (h : e.start ≤ c.start ∧ c.stop ≤ e.stop) :
    Covered [skipped c, edit e] := by
  intro d hd
  obtain rfl : d = c := by simpa using hd
  exact ⟨e, h, .inr (.refl _)⟩

/-- While children are left out there is an edit to come that reaches at least as far. -/
theorem exists_cut (src : Text) (plan : Task → Tree → Scan) {cs : List Tree} {p pos stop : Nat}
    {n : Option Concrete} (hclose : (Scan.toType p n).Closes cs) (hs : Tree.Spaced pos cs stop) :
    ∃ q, pos ≤ q ∧ edit (.deletion p q) ∈ marksAll src plan (.toType p n) cs := by
  induction cs generalizing pos with
  | nil =>
    obtain ⟨y, hy, -⟩ := hclose
    cases hy
  | cons c cs ih =>
    obtain ⟨h₁, h₂, h₃⟩ := hs
    by_cases hc : c.plays .type
    · exact ⟨c.stop, Nat.le_trans h₁ h₂, by simp [marksAll, Scan.step, hc]⟩
    · have hnext := hclose.step
      simp only [Scan.step, hc] at hnext
      obtain ⟨q, hq, hmem⟩ := ih hnext h₃
      exact ⟨q, by omega, by simp [marksAll, Scan.step, hc, hmem]⟩

theorem covered_marksAll {cs : List Tree} {pos stop : Nat} {s : Scan} (hclose : s.Closes cs)
    (hs : Tree.Spaced pos cs stop) (hanchor : s.anchor pos ≤ pos)
    (ih : ∀ c ∈ cs, ∀ task, Covered (marks src (scan src note) task c)) :
    Covered (marksAll src (scan src note) s cs) := by
  induction cs generalizing pos s with
  | nil =>
    intro c hc
    simp [marksAll] at hc
  | cons c cs ihcs =>
    obtain ⟨h₁, h₂, h₃⟩ := hs
    have ih' : ∀ d ∈ cs, ∀ task, Covered (marks src (scan src note) task d) :=
      fun d hd => ih d (List.mem_cons_of_mem _ hd)
    have hnext := hclose.step
    rcases s.step_cases c with ⟨task, next, hstep, -, hstop⟩ | ⟨p, n, rfl, -, hstep⟩ |
      ⟨p, n, rfl, -, hstep⟩
    · rw [hstep] at hnext
      simp only [marksAll, hstep]
      exact (ih c List.mem_cons_self task).append (ihcs hnext h₃ (Nat.le_of_eq hstop) ih')
    · rw [hstep] at hnext
      have hp : p ≤ pos := hanchor
      have hrest := ihcs hnext h₃ (show p ≤ c.stop by omega) ih'
      simp only [marksAll, hstep]
      intro x hx
      rcases List.mem_cons.1 hx with hx | hx
      · -- the removal that covers the child is still to come
        cases hx
        obtain ⟨q, hq, hmem⟩ := exists_cut src (scan src note) hnext h₃
        exact ⟨_, ⟨Nat.le_trans hp h₁, hq⟩, .inr (.cons_cons _ (List.singleton_sublist.2 hmem))⟩
      · obtain ⟨e, he, hsub⟩ := hrest x hx
        exact ⟨e, he, hsub.imp (.cons _) (.cons _)⟩
    · rw [hstep] at hnext
      have hp : p ≤ pos := hanchor
      have hrest := ihcs hnext h₃ (Nat.le_of_eq (Scan.anchor_toValue n c.stop)) ih'
      simp only [marksAll, hstep]
      exact (covered_skipped (e := .deletion p c.stop)
        ⟨Nat.le_trans hp h₁, Nat.le_refl _⟩).append hrest

/-- What the walk leaves out lies inside one of its edits. -/
theorem covered_marks {t : Tree} (ht : t.Parsed) (task : Task) :
    Covered (marks src (scan src note) task t) := by
  induction t using Tree.inductionOn generalizing task with
  | node l cs ih =>
    have hinner : Covered (marksAll src (scan src note) (scan src note task (.node l cs)) cs) :=
      covered_marksAll (closes_scan note ht task) ht.spaced.children
        (Nat.le_of_eq (anchor_scan src note task _ _)) fun c hc => ih c hc (ht.of_child hc)
    have hself : ∀ text, Covered [.edit ⟨l.start, l.stop, text⟩, .skipped (.node l cs)] := by
      intro text x hx
      obtain rfl : x = .node l cs := by simpa using hx
      exact ⟨_, ⟨Nat.le_refl _, Nat.le_refl _⟩, .inl (.refl _)⟩
    rw [marks]
    cases task with
    | replaced n => exact hself _
    | wrapped n => exact hself _
    | followed n => exact hinner.append (covered_edit _)
    | _ => exact hinner

theorem removal_bounds {t : Tree} {d : Declaration} (ht : t.Parsed)
    (h : declaration? src t = some d) :
    t.start ≤ d.name.stop ∧ d.name.stop ≤ d.ascription.start ∧ d.name.stop < d.ascription.stop ∧
      d.ascription.stop ≤ t.stop := by
  obtain ⟨type, leading, hd⟩ := declaration?_eq_some_iff.1 h
  exact hd.removal_bounds ht.spaced (ht.declarators t t.mem_preorder_self hd.kind).1

theorem removal_mem_componentMarks {t : Tree} {d : Declaration} (note : Tree → Concrete)
    (ht : t.Parsed) (h : declaration? src t = some d) :
    edit d.removal ∈ componentMarks src note t := by
  obtain ⟨pre, mid, post, -, -, -, hmarks⟩ := exists_componentMarks note ht h
  rw [hmarks]
  simp

/-- An edit that covers a declarator clashes with the removal there. -/
theorem not_apart_of_covers {c n : Tree} {d : Declaration} {e : Edit} (hc : c.Parsed)
    (hn : n ∈ c.preorder) (h : declaration? src n = some d) (he : e.start ≤ c.start ∧ c.stop ≤ e.stop) :
    ¬ Edit.Apart e d.removal := by
  have h₁ := hc.spaced.bounds hn
  have h₂ := removal_bounds (hc.of_mem hn) h
  simp only [Edit.Apart, Declaration.removal, Edit.deletion]
  omega

/-- Over a list of children: what is left out stands in one of them. -/
theorem exists_mem_of_skipped {plan : Task → Tree → Scan} {s : Scan} {c : Tree} {cs : List Tree}
    (ih : ∀ d ∈ cs, ∀ task, skipped c ∈ marks src plan task d → c ∈ d.preorder)
    (h : skipped c ∈ marksAll src plan s cs) : ∃ d ∈ cs, c ∈ d.preorder := by
  induction cs generalizing s with
  | nil => simp [marksAll] at h
  | cons d cs ihcs =>
    have hrest : ∀ s, skipped c ∈ marksAll src plan s cs → ∃ e ∈ d :: cs, c ∈ e.preorder := by
      intro s hs
      obtain ⟨e, he, hce⟩ := ihcs (fun e he => ih e (List.mem_cons_of_mem _ he)) hs
      exact ⟨e, List.mem_cons_of_mem _ he, hce⟩
    have hself : c = d → ∃ e ∈ d :: cs, c ∈ e.preorder := by
      rintro rfl
      exact ⟨c, List.mem_cons_self, c.mem_preorder_self⟩
    rcases s.step_cases d with ⟨task, next, hstep, -, -⟩ | ⟨p, n, rfl, -, hstep⟩ |
      ⟨p, n, rfl, -, hstep⟩
    · simp only [marksAll, hstep, List.mem_append] at h
      rcases h with h | h
      · exact ⟨d, List.mem_cons_self, ih d List.mem_cons_self task h⟩
      · exact hrest _ h
    · simp only [marksAll, hstep, List.mem_cons, skipped.injEq] at h
      exact h.elim hself (hrest _)
    · simp only [marksAll, hstep, List.mem_cons, skipped.injEq, reduceCtorEq, false_or] at h
      exact h.elim hself (hrest _)

theorem mem_preorder_of_skipped {plan : Task → Tree → Scan} {task : Task} {c t : Tree}
    (h : skipped c ∈ marks src plan task t) : c ∈ t.preorder := by
  induction t using Tree.inductionOn generalizing task with
  | node l cs ih =>
    have hinner : ∀ s, skipped c ∈ marksAll src plan s cs → c ∈ (Tree.node l cs).preorder :=
      fun s hs => Tree.mem_preorder_node.2
        (.inr (exists_mem_of_skipped (fun d hd task => ih d hd) hs))
    have hself : c = .node l cs → c ∈ (Tree.node l cs).preorder := by
      rintro rfl
      exact Tree.mem_preorder_self _
    rw [marks] at h
    cases task with
    | replaced n => exact hself (by simpa [Task.frame] using h)
    | wrapped n => exact hself (by simpa [Task.frame] using h)
    | followed n => exact hinner _ (by simpa [Task.frame] using h)
    | _ => exact hinner _ h

theorem Mark.mem_edits {e : Edit} {ms : List Mark} : e ∈ edits ms ↔ edit e ∈ ms := by
  constructor
  · intro h
    obtain ⟨m, hm, he⟩ := List.mem_filterMap.1 h
    cases m with
    | edit f => exact Option.some.inj he ▸ hm
    | skipped t => cases he
  · exact fun h => List.mem_filterMap.2 ⟨_, h, rfl⟩

/-- **If no two edits clash, no component was left out.** -/
theorem plain_of_skipped {task : Task} {c t : Tree} (ht : t.Parsed)
    (hapart : (edits (expand (componentMarks src note)
      (marks src (scan src note) task t))).Pairwise Edit.Apart)
    (hc : skipped c ∈ marks src (scan src note) task t) :
    c.Plain src := by
  refine Tree.plain_of_forall_ne fun n hn d hd => ?_
  have hparsed := ht.of_mem (mem_preorder_of_skipped hc)
  obtain ⟨e, he, hsub⟩ := covered_marks ht task c hc
  have hremoval : d.removal ∈ edits (c.preorder.flatMap (componentMarks src note)) :=
    mem_edits.2 (List.mem_flatMap.2
      ⟨n, hn, removal_mem_componentMarks note (hparsed.of_mem hn) hd⟩)
  have hclash := not_apart_of_covers hparsed hn hd he
  -- the edit and what is left out are both in the list, so the removal and the edit are compared
  rcases hsub with hsub | hsub
  · have h : (edits (expand (componentMarks src note) [edit e, skipped c])).Pairwise Edit.Apart :=
      hapart.sublist ((hsub.flatMap _).filterMap _)
    simp only [expand_cons_edit, expand_cons_skipped, expand_nil, List.append_nil,
      edits_cons_edit, edits_cons_skipped, List.pairwise_cons] at h
    exact hclash (h.1 _ hremoval)
  · have h : (edits (expand (componentMarks src note) [skipped c, edit e])).Pairwise Edit.Apart :=
      hapart.sublist ((hsub.flatMap _).filterMap _)
    simp only [expand_cons_edit, expand_cons_skipped, expand_nil, edits_append,
      edits_cons_edit, edits_cons_skipped, edits_nil, List.pairwise_append] at h
    exact hclash (h.2.2 _ hremoval e List.mem_cons_self).symm

/-- If no component is left out, the walk meets all the edits. -/
theorem perm_edits_marks {t : Tree}
    (h : ∀ c, skipped c ∈ marks src (scan src note) .keep t → c.Plain src) :
    (edits (marks src (scan src note) .keep t)).Perm
      (edits (t.preorder.flatMap (componentMarks src note))) := by
  have hperm := perm_expand_root src note t
  rw [expand_eq_self fun c hc =>
    List.flatMap_eq_nil_iff.2 fun n hn => componentMarks_of_none (h c hc n hn)] at hperm
  exact edits_perm hperm

end Covered

end PlainComponents
