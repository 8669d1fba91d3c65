import Mathlib
import PlainComponents.Proofs.Component.AllOrNothing
import PlainComponents.Proofs.Conversion.Walk
import PlainComponents.Proofs.Text.Frame

/-!
# The footprint of a component

A component is converted at two places that can lie far apart: behind its name, and at the first parameter
of a function that any number of calls and parentheses may wrap.  This module says how little is touched
there.

* `Declaration.Footprint` lists the edits that a component can get, with the range of each;
* `Declaration.Bystander` names what stands around them in the value: the calls and their other arguments,
  the later parameters, the return type and the body, and of the first parameter the pattern, the `?` and
  the default value;
* `convert_footprint` says that a component gets edits of this form or leaves the draft alone, and that
  the bystanders are spelt after the edits as they were before.

The argument is about spans.  The function is found by going down through nested nodes, so all that stands
beside the way down is clear of the first parameter (`Tree.Beside.disjoint`), and `Text.slice_edit` carries
over what is clear of all edits.
-/

namespace PlainComponents

namespace Tree

/-! ### Parts in the order of the grammar -/

/-- The parts of a listed parameter, in the order of the grammar. -/
def parameterParts : List (Tree → Bool) :=
  [plays .pattern, isToken (.other "?"), plays .type, plays .value]

/-- What a parser promises of the parts that stand around the edits. -/
structure Sequenced (t : Tree) : Prop where
  spaced : t.WellSpaced
  declarators : ∀ n ∈ t.preorder, n.kind = .variableDeclarator →
    n.Precedes .name .type ∧ n.Precedes .type .value
  parameters : ∀ n ∈ t.preorder, n.kind = .requiredParameter ∨ n.kind = .optionalParameter →
    n.InOrder parameterParts

theorem Sequenced.of_mem {t n : Tree} (h : t.Sequenced) (hn : n ∈ t.preorder) : n.Sequenced where
  spaced := h.spaced.of_mem hn
  declarators m hm := h.declarators m (mem_preorder_trans hm hn)
  parameters m hm := h.parameters m (mem_preorder_trans hm hn)

/-- The first parameter of a function: the bare one, else the first of the list. -/
def firstParameter? (function : Tree) : Option Tree :=
  (function.field? .parameter).or ((function.field? .parameters).bind firstProper?)

theorem firstParameter?_of_bare {function bare : Tree} (h : function.field? .parameter = some bare) :
    function.firstParameter? = some bare := by
  rw [firstParameter?, h, Option.some_or]

theorem firstParameter?_of_list {function list : Tree} (h : function.field? .parameter = none)
    (hlist : function.field? .parameters = some list) :
    function.firstParameter? = list.firstProper? := by
  rw [firstParameter?, h, Option.none_or, hlist, Option.bind_some]

theorem mem_preorder_of_firstParameter? {function first : Tree}
    (h : function.firstParameter? = some first) : first ∈ function.preorder := by
  rcases Option.or_eq_some_iff.1 h with hbare | ⟨-, hlisted⟩
  · exact child_mem_preorder (mem_of_field? hbare)
  · obtain ⟨list, hlist, hfirst⟩ := Option.bind_eq_some_iff.1 hlisted
    exact mem_preorder_of_mem_children (mem_of_field? hlist)
      (child_mem_preorder (mem_of_firstProper? hfirst))

/-- The parts of a listed parameter beside its type: the pattern, the `?` and the default value. -/
def HasPart (parameter part : Tree) : Prop :=
  parameter.field? .pattern = some part ∨ parameter.token? (.other "?") = some part ∨
    parameter.field? .value = some part

theorem HasPart.mem_children {parameter part : Tree} (h : parameter.HasPart part) :
    part ∈ parameter.children := by
  rcases h with h | h | h
  · exact mem_of_field? h
  · exact mem_of_token? h
  · exact mem_of_field? h

/-! ### What stands beside a node -/

/-- The node `m` belongs to a sibling of the node `target` or of one above it, inside the given tree. -/
inductive Beside (target m : Tree) : Tree → Prop
  | sibling {t c s : Tree} {pre post : List Tree} (hcs : t.children = pre ++ c :: post)
      (htarget : target ∈ c.preorder) (hs : s ∈ pre ++ post) (hm : m ∈ s.preorder) : Beside target m t
  | deeper {t c : Tree} (hc : c ∈ t.children) (h : Beside target m c) : Beside target m t

variable {target m t : Tree}

theorem Beside.mem_preorder (h : Beside target m t) : m ∈ t.preorder := by
  induction h with
  | @sibling t c s pre post hcs _ hs hm =>
    apply mem_preorder_of_mem_children _ hm
    rw [hcs]
    rcases List.mem_append.1 hs with hs | hs
    · exact List.mem_append_left _ hs
    · exact List.mem_append_right _ (List.mem_cons_of_mem _ hs)
  | deeper hc _ ih => exact mem_preorder_of_mem_children hc ih

/-- What stands beside a node does not overlap with it. -/
theorem Beside.disjoint (h : Beside target m t) (hspaced : t.WellSpaced) :
    m.stop ≤ target.start ∨ target.stop ≤ m.start := by
  induction h with
  | @sibling t c s pre post hcs htarget hs hm =>
    have hall := hspaced.children
    rw [hcs] at hall
    obtain ⟨hpre, -, hpost⟩ := hall.split
    have hchild : ∀ x ∈ pre ++ c :: post, x.WellSpaced := by
      intro x hx
      rw [← hcs] at hx
      exact hspaced.of_mem (child_mem_preorder hx)
    have hc := (hchild c (by simp)).bounds htarget
    -- the siblings before the node end where it starts, those behind it start where it ends
    rcases List.mem_append.1 hs with hs | hs
    · have h₁ := hpre.bounds s hs
      have h₂ := (hchild s (List.mem_append_left _ hs)).bounds hm
      left
      omega
    · have h₁ := hpost.bounds s hs
      have h₂ := (hchild s (List.mem_append_right _ (List.mem_cons_of_mem _ hs))).bounds hm
      right
      omega
  | deeper hc _ ih => exact ih (hspaced.of_mem (child_mem_preorder hc))

end Tree

/-! ### The edit at a listed parameter -/

/-- The edit leaves the parts of a parameter alone: it lies behind the pattern and the `?`, before the
default value and inside the parameter. -/
structure Edit.Within (e : Edit) (parameter pattern : Tree) : Prop where
  start_le : parameter.start ≤ e.start
  le : e.start ≤ e.stop
  stop_le : e.stop ≤ parameter.stop
  pattern_le : pattern.stop ≤ e.start
  question_le : ∀ question, parameter.token? (.other "?") = some question → question.stop ≤ e.start
  le_value : ∀ value, parameter.field? .value = some value → e.stop ≤ value.start

/-- An annotation is written within its parameter, if the parts of the parameter are in order. -/
theorem Parameter.within_ascribe {parameter pattern : Tree} (props : PropsType)
    (hs : parameter.WellSpaced) (horder : parameter.InOrder Tree.parameterParts)
    (hpattern : parameter.field? .pattern = some pattern) :
    (ascribe props parameter pattern).Within parameter pattern := by
  simp only [Tree.InOrder, Tree.parameterParts, List.pairwise_cons, List.forall_mem_cons] at horder
  obtain ⟨⟨hpq, hpt, hpv, -⟩, ⟨hqt, hqv, -⟩, ⟨htv, -⟩, -⟩ := horder
  have hchild : ∀ {c}, c ∈ parameter.children →
      parameter.start ≤ c.start ∧ c.start ≤ c.stop ∧ c.stop ≤ parameter.stop := fun hc =>
    hs.bounds (Tree.child_mem_preorder hc)
  have hp := hchild (Tree.mem_of_field? hpattern)
  cases htype : parameter.field? .type with
  | some type =>
    -- the annotation takes the place of the type
    have he : ascribe props parameter pattern = ⟨type.start, type.stop, ascription props⟩ := by
      simp only [ascribe, htype]
    have ht := hchild (Tree.mem_of_field? htype)
    rw [he]
    exact {
      start_le := ht.1
      le := ht.2.1
      stop_le := ht.2.2
      pattern_le := hpt.stop_le hs hpattern htype
      question_le := fun question hq => hqt.stop_le hs hq htype
      le_value := fun value hv => htv.stop_le hs htype hv }
  | none =>
    cases hq : parameter.token? (.other "?") with
    | some question =>
      -- the annotation follows the `?`
      have he : ascribe props parameter pattern =
          ⟨question.stop, question.stop, ascription props⟩ := by
        simp only [ascribe, htype, hq, Option.getD_some]
      have hbounds := hchild (Tree.mem_of_token? hq)
      have hle := hpq.stop_le hs hpattern hq
      rw [he]
      refine ⟨by dsimp only; omega, Nat.le_refl _, hbounds.2.2, by dsimp only; omega, ?_, ?_⟩
      · intro other hother
        obtain rfl := Option.some.inj (hq.symm.trans hother)
        exact Nat.le_refl _
      · intro value hv
        exact hqv.stop_le hs hq hv
    | none =>
      -- the annotation follows the pattern
      have he : ascribe props parameter pattern =
          ⟨pattern.stop, pattern.stop, ascription props⟩ := by
        simp only [ascribe, htype, hq, Option.getD_none]
      rw [he]
      refine ⟨by dsimp only; omega, Nat.le_refl _, hp.2.2, Nat.le_refl _, ?_, ?_⟩
      · intro question hquestion
        cases hq.symm.trans hquestion
      · intro value hv
        exact hpv.stop_le hs hpattern hv

/-- How the first parameter of a function gets its type. -/
inductive Edit.Annotation (src : Text) (props : PropsType) (function first : Tree) : Edit → Prop
  /-- A bare parameter is written again, in parentheses and with its type. -/
  | parenthesized (hbare : function.field? .parameter = some first) :
      Annotation src props function first
        ⟨first.start, first.stop, ['('] ++ first.text src ++ ([':', ' '] ++ props.render) ++ [')']⟩
  /-- A listed parameter gets its type behind the pattern. -/
  | ascribed {pattern : Tree} {e : Edit} (hbare : function.field? .parameter = none)
      (hpattern : first.field? .pattern = some pattern) (hwithin : e.Within first pattern)
      (htext : e.text = [':', ' '] ++ props.render) : Annotation src props function first e

/-- The first parameter is annotated inside its own range. -/
theorem Edit.Annotation.bounds {src : Text} {props : PropsType} {function first : Tree} {e : Edit}
    (h : Annotation src props function first e) (hs : first.WellSpaced) :
    first.start ≤ e.start ∧ e.start ≤ e.stop ∧ e.stop ≤ first.stop := by
  cases h with
  | parenthesized _ => exact ⟨Nat.le_refl _, hs.le, Nat.le_refl _⟩
  | ascribed _ _ hwithin _ => exact ⟨hwithin.start_le, hwithin.le, hwithin.stop_le⟩

namespace Declaration

/-! ### Footprints -/

/-- The edits that a component can get.  There is one if it has no props or its function no parameters,
and there are two otherwise. -/
inductive Footprint (src : Text) (d : Declaration) : List Edit → Prop
  | propless (h : d.props = none) : Footprint src d [.deletion d.name.stop d.ascription.stop]
  | parameterless {f : FunctionNode} (hf : FunctionNode.find? d.value = some f)
      (h : f.node.firstParameter? = none) :
      Footprint src d [.deletion d.name.stop d.ascription.stop]
  | annotated {p first : Tree} {props : PropsType} {f : FunctionNode} {e : Edit}
      (hp : d.props = some p) (hprops : PropsType.ofTree src p = .ok props)
      (hf : FunctionNode.find? d.value = some f) (hfirst : f.node.firstParameter? = some first)
      (he : e.Annotation src props f.node first) :
      Footprint src d [e, .deletion d.name.stop d.ascription.stop]

variable {src : Text} {t type leading first m : Tree} {d : Declaration} {f : FunctionNode}
  {es : List Edit}

/-- The first parameter of the function stands in the value, whatever wraps the function. -/
theorem first_mem_value (hf : FunctionNode.find? d.value = some f)
    (hfirst : f.node.firstParameter? = some first) : first ∈ d.value.preorder :=
  Tree.mem_preorder_trans (Tree.mem_preorder_of_firstParameter? hfirst)
    (FunctionNode.mem_preorder_of_find? hf)

theorem footprint_of_edits (ht : d.value.Sequenced) (h : d.edits src = .ok es) :
    d.Footprint src es := by
  cases edits_eq_ok h with
  | bare hp he =>
    subst he
    exact .propless hp
  | unused hp hprops hf ha he =>
    subst he
    obtain ⟨hbare, list, hlist, hnone⟩ := Parameter.annotateFirst_eq_ok_none ha
    exact .parameterless hf ((Tree.firstParameter?_of_list hbare hlist).trans hnone)
  | @annotated _ props _ _ _ hp hprops hf ha he =>
    subst he
    rcases Parameter.annotateFirst_eq_ok_some ha with
      ⟨bare, hbare, rfl⟩ | ⟨hbare, list, first, pattern, hlist, hfirst, hkind, hpattern, rfl⟩
    · exact .annotated hp hprops hf (Tree.firstParameter?_of_bare hbare) (.parenthesized hbare)
    · have hfirst := (Tree.firstParameter?_of_list hbare hlist).trans hfirst
      have hmem := first_mem_value hf hfirst
      have hwithin := Parameter.within_ascribe props (ht.spaced.of_mem hmem)
        (ht.parameters first hmem hkind) hpattern
      exact .annotated hp hprops hf hfirst
        (.ascribed hbare hpattern hwithin (Parameter.text_ascribe _ _ _))

theorem Declared.value_sequenced (hd : Declared src t d type leading) (ht : t.Sequenced) :
    d.value.Sequenced :=
  ht.of_mem (Tree.child_mem_preorder (Tree.mem_of_field? hd.value))

/-- The annotation of a component ends before its value. -/
theorem Declared.ascription_stop_le (hd : Declared src t d type leading) (ht : t.Sequenced) :
    d.ascription.stop ≤ d.value.start :=
  (ht.declarators t t.mem_preorder_self hd.kind).2.stop_le ht.spaced hd.ascription hd.value

/-- The edits of a component are apart and do not run backwards. -/
theorem Footprint.apart (h : d.Footprint src es) (hd : Declared src t d type leading)
    (ht : t.Sequenced) : es.Pairwise Edit.Apart ∧ ∀ e ∈ es, e.start ≤ e.stop := by
  have hs := (hd.value_sequenced ht).spaced
  have hremoval := hd.removal_bounds ht.spaced (ht.declarators t t.mem_preorder_self hd.kind).1
  have hvalue := hd.ascription_stop_le ht
  have hone : d.name.stop ≤ d.ascription.stop := Nat.le_of_lt hremoval.2.2.1
  cases h with
  | propless _ => exact ⟨List.pairwise_singleton _ _, by simpa [Edit.deletion] using hone⟩
  | parameterless _ _ => exact ⟨List.pairwise_singleton _ _, by simpa [Edit.deletion] using hone⟩
  | annotated hp hprops hf hfirst he =>
    -- the first parameter stands in the value, behind all that is removed
    have hmem := first_mem_value hf hfirst
    have hin := hs.bounds hmem
    have hbounds := he.bounds (hs.of_mem hmem)
    constructor
    · apply List.pairwise_pair.2
      simp only [Edit.Apart, Edit.deletion]
      omega
    · intro x hx
      rcases List.mem_cons.1 hx with rfl | hx
      · exact hbounds.2.1
      · obtain rfl := List.mem_singleton.1 hx
        exact hone

/-! ### Bystanders -/

/-- What stands around the edits of a component, in its value. -/
inductive Bystander (d : Declaration) (m : Tree) : Prop
  /-- Everything, if there are no props. -/
  | propless (h : d.props = none) (hm : m ∈ d.value.preorder)
  /-- Everything, if the function takes no parameters. -/
  | parameterless {f : FunctionNode} (hf : FunctionNode.find? d.value = some f)
      (h : f.node.firstParameter? = none) (hm : m ∈ d.value.preorder)
  /-- What is not above or below the first parameter: the callees and further arguments of the calls,
  the later parameters, the return type and the body. -/
  | beside {f : FunctionNode} {first : Tree} (hf : FunctionNode.find? d.value = some f)
      (hfirst : f.node.firstParameter? = some first) (h : Tree.Beside first m d.value)
  /-- The pattern, the `?` and the default value of a listed first parameter. -/
  | part {f : FunctionNode} {first part : Tree} (hf : FunctionNode.find? d.value = some f)
      (hbare : f.node.field? .parameter = none) (hfirst : f.node.firstParameter? = some first)
      (hpart : first.HasPart part) (hm : m ∈ part.preorder)

theorem Bystander.mem_preorder (h : d.Bystander m) : m ∈ d.value.preorder := by
  cases h with
  | propless _ hm => exact hm
  | parameterless _ _ hm => exact hm
  | beside _ _ h => exact h.mem_preorder
  | part hf _ hfirst hpart hm =>
    exact Tree.mem_preorder_trans
      (Tree.mem_preorder_of_mem_children hpart.mem_children hm) (first_mem_value hf hfirst)

end Declaration

namespace Edit

/-- No edit reaches into the node. -/
def Spare (es : List Edit) (m : Tree) : Prop :=
  ∀ e ∈ es, e.stop ≤ m.start ∨ m.stop ≤ e.start

/-- After the edits, the node is spelt as the source spells it. -/
def Carry (src : Text) (es : List Edit) (out : Text) (m : Tree) : Prop :=
  out.slice (moved es m.start) (moved es m.start + (m.stop - m.start)) = m.text src

variable {src : Text} {props : PropsType} {function first part m : Tree} {e : Edit}

/-- Of a listed parameter, the annotation leaves the pattern, the `?` and the default value. -/
theorem Annotation.clear_of_part (h : Annotation src props function first e)
    (hs : first.WellSpaced) (hbare : function.field? .parameter = none) (hpart : first.HasPart part)
    (hm : m ∈ part.preorder) :
    e.stop ≤ m.start ∨ m.stop ≤ e.start := by
  have hmem := Tree.child_mem_preorder hpart.mem_children
  have hbounds := (hs.of_mem hmem).bounds hm
  cases h with
  | parenthesized hsome => cases hbare.symm.trans hsome
  | ascribed _ hpattern hwithin _ =>
    rcases hpart with hpart | hpart | hpart
    · obtain rfl := Option.some.inj (hpattern.symm.trans hpart)
      have := hwithin.pattern_le
      right
      omega
    · have := hwithin.question_le part hpart
      right
      omega
    · have := hwithin.le_value part hpart
      left
      omega

end Edit

namespace Declaration

variable {src : Text} {t type leading m : Tree} {d : Declaration} {es : List Edit}

/-- No edit of a component reaches into a bystander. -/
theorem Bystander.spare (hm : d.Bystander m) (h : d.Footprint src es)
    (hd : Declared src t d type leading) (ht : t.Sequenced) : Edit.Spare es m := by
  have hs := (hd.value_sequenced ht).spaced
  have hin := hs.bounds hm.mem_preorder
  have hvalue := hd.ascription_stop_le ht
  -- all that is removed ends before the value starts
  have hone : ∀ x ∈ [Edit.deletion d.name.stop d.ascription.stop],
      x.stop ≤ m.start ∨ m.stop ≤ x.start := by
    intro x hx
    obtain rfl := List.mem_singleton.1 hx
    left
    simp only [Edit.deletion]
    omega
  cases h with
  | propless _ => exact hone
  | parameterless _ _ => exact hone
  | @annotated p first props f e hp hprops hf hfirst he =>
    rw [Edit.Spare, List.forall_mem_cons]
    refine ⟨?_, hone⟩
    have hspaced := hs.of_mem (first_mem_value hf hfirst)
    -- the function and its first parameter are those that the bystander is seen from
    cases hm with
    | propless h => cases h.symm.trans hp
    | parameterless hf' h =>
      obtain rfl := Option.some.inj (hf.symm.trans hf')
      cases h.symm.trans hfirst
    | beside hf' hfirst' h =>
      obtain rfl := Option.some.inj (hf.symm.trans hf')
      obtain rfl := Option.some.inj (hfirst.symm.trans hfirst')
      have hbounds := he.bounds hspaced
      have hdisjoint := h.disjoint hs
      omega
    | part hf' hbare hfirst' hpart hm =>
      obtain rfl := Option.some.inj (hf.symm.trans hf')
      obtain rfl := Option.some.inj (hfirst.symm.trans hfirst')
      exact he.clear_of_part hspaced hbare hpart hm

/-- The edits of a component by themselves are carried out, and carry over every node that they spare. -/
theorem Footprint.exists_edit (h : d.Footprint src es) (hd : Declared src t d type leading)
    (ht : t.Sequenced) (hb : Edit.OnBoundaries src es) :
    ∃ out, src.edit es = .ok out ∧ ∀ m : Tree, src.isBoundary m.start → src.isBoundary m.stop →
      m.start ≤ m.stop → Edit.Spare es m → Edit.Carry src es out m := by
  obtain ⟨hapart, hforward⟩ := h.apart hd ht
  have hout := Text.edit_eq_splice_ordered hapart hb hforward
  refine ⟨_, hout, ?_⟩
  intro m hstart hstop hle hspare
  exact Text.slice_edit hb hforward hout hstart hstop hle hspare

end Declaration

open Declaration

/-- **The footprint of a component.**  A component that cannot be converted leaves the draft as it was.
One that can adds the removal of its annotation and, if it has props and its function has parameters, one
edit before it, inside the first parameter.  Carried out by themselves, these edits leave every node that
they do not reach into as it was, and in particular all bystanders. -/
theorem convert_footprint (draft : Draft) (tree : Tree) (d : Declaration) (ht : tree.Sequenced)
    (hd : d ∈ declarations draft.source tree) :
    (∀ left failure, draft.convert d = (left, some failure) → left = draft) ∧
    ∀ next, draft.convert d = (next, none) → ∃ es,
      next = { draft with edits := draft.edits ++ es } ∧ d.Footprint draft.source es ∧
      (tree.OnBoundaries draft.source → ∃ out, draft.source.edit es = .ok out ∧
        (∀ m ∈ tree.preorder, Edit.Spare es m → Edit.Carry draft.source es out m) ∧
        ∀ m, d.Bystander m → Edit.Carry draft.source es out m) := by
  obtain ⟨n, hn, hdn⟩ := mem_declarations.1 hd
  obtain ⟨type, leading, hdeclared⟩ := declaration?_eq_some_iff.1 hdn
  have hsequenced := ht.of_mem hn
  rw [Draft.convert_eq]
  cases hes : d.edits draft.source with
  | error failure =>
    refine ⟨?_, by simp⟩
    rintro left failure ⟨⟩
    rfl
  | ok es =>
    refine ⟨by simp, ?_⟩
    rintro next ⟨⟩
    have hfootprint := footprint_of_edits (hdeclared.value_sequenced hsequenced) hes
    refine ⟨es, rfl, hfootprint, ?_⟩
    intro hb
    obtain ⟨out, hout, hcarry⟩ := hfootprint.exists_edit hdeclared hsequenced
      (onBoundaries_edits hdn (hb.of_mem hn) hes)
    have hcarry : ∀ m ∈ tree.preorder, Edit.Spare es m → Edit.Carry draft.source es out m := by
      intro m hm
      obtain ⟨hstart, hstop⟩ := hb m hm
      exact hcarry m hstart hstop (ht.spaced.bounds hm).2.1
    refine ⟨out, hout, hcarry, ?_⟩
    intro m hm
    have hvalue := Tree.mem_preorder_of_mem_children (Tree.mem_of_field? hdeclared.value)
      hm.mem_preorder
    exact hcarry m (Tree.mem_preorder_trans hvalue hn) (hm.spare hfootprint hdeclared hsequenced)

open Concrete in
/-- `const X: FC<P> = memo((p = q, r): R => s, t)`, where much stands around the first parameter. -/
def surrounded : Concrete :=
  constants [declarator "X" (application "FC" (leaf .typeIdentifier none "P"))
    (branch .callExpression (some .value) [leaf .identifier (some (.other "function")) "memo",
      branch .arguments (some .arguments) [token "(", branch .arrowFunction none [
          branch .formalParameters (some .parameters) [token "(",
            branch .requiredParameter none [leaf .identifier (some .pattern) "p", space, token "=",
              space, leaf .identifier (some .value) "q"],
            token ",", space,
            branch .requiredParameter none [leaf .identifier (some .pattern) "r"], token ")"],
          branch (.other "type_annotation") (some (.other "return_type"))
            [token ":", space, leaf .typeIdentifier none "R"],
          space, token "=>", space, leaf .identifier (some (.other "body")) "s"],
        token ",", space, leaf .identifier none "t", token ")"]])]

/-- `mixed` with the removal of the first annotation queued. -/
def halfDone : Draft :=
  ⟨mixed.text, [.deletion 7 11]⟩

/-- The component of `surrounded` gets two edits.  The default value of the first parameter and the second
argument of the call are spelt after them as before.  The second component of `mixed` cannot be converted,
and what is queued for the first one stays queued. -/
theorem surrounded_footprint :
    surrounded.tree.Sequenced ∧ surrounded.tree.OnBoundaries surrounded.text ∧
    (∃ d ∈ declarations surrounded.text surrounded.tree, ∃ es, d.Footprint surrounded.text es ∧
      (Draft.ofSource surrounded.text).convert d = (⟨surrounded.text, es⟩, none) ∧ es.length = 2 ∧
      ∃ out, surrounded.text.edit es = .ok out ∧
        out = "const X = memo((p: P = q, r): R => s, t)".toList ∧
        ∃ value argument, d.Bystander value ∧ value.text surrounded.text = ['q'] ∧
          Edit.Carry surrounded.text es out value ∧ d.Bystander argument ∧
          argument.text surrounded.text = ['t'] ∧ Edit.Carry surrounded.text es out argument) ∧
    mixed.tree.Sequenced ∧ ∃ d ∈ declarations mixed.text mixed.tree,
      halfDone.convert d = (halfDone, some (.unsupported .component .identifier 28)) := by
  have ht : surrounded.tree.Sequenced := ⟨by decide, by decide, by decide⟩
  have hb : surrounded.tree.OnBoundaries surrounded.text := by decide
  obtain ⟨d, f, first, value, args, argument, pre, post, hds, hf, hbare, hfirst, hvalue, hargs,
      hchildren, hargument, hvtext, hatext, hes⟩ :
      ∃ d f first value args argument pre post,
        declarations surrounded.text surrounded.tree = [d] ∧
        FunctionNode.find? d.value = some f ∧ f.node.field? .parameter = none ∧
        f.node.firstParameter? = some first ∧ first.field? .value = some value ∧
        d.value.children[1]? = some args ∧ args.children = [pre] ++ f.node :: post ∧
        post[1]? = some argument ∧ value.text surrounded.text = ['q'] ∧
        argument.text surrounded.text = ['t'] ∧
        d.edits surrounded.text = .ok [⟨24, 24, ": P".toList⟩, ⟨7, 14, []⟩] := by
    rw [declarations_eq_filterMap]
    exact ⟨_, _, _, _, _, _, _, _, rfl, rfl, rfl, rfl, rfl, rfl, rfl, rfl, rfl, rfl, rfl⟩
  have hd : d ∈ declarations surrounded.text surrounded.tree := by simp [hds]
  have hconvert : (Draft.ofSource surrounded.text).convert d =
      (⟨surrounded.text, [⟨24, 24, ": P".toList⟩, ⟨7, 14, []⟩]⟩, none) :=
    Draft.convert_of_ok ((alone_eq_edits _ _).trans hes)
  obtain ⟨-, hok⟩ := convert_footprint (Draft.ofSource surrounded.text) surrounded.tree d ht hd
  obtain ⟨es, hnext, hfootprint, hcarried⟩ := hok _ hconvert
  obtain rfl : _ = es := (Draft.mk.inj hnext).2
  obtain ⟨out, hout, -, hcarry⟩ := hcarried hb
  have hedit : surrounded.text.edit [⟨24, 24, ": P".toList⟩, ⟨7, 14, []⟩] =
      .ok "const X = memo((p: P = q, r): R => s, t)".toList := by cbv
  have hpart : d.Bystander value :=
    .part hf hbare hfirst (.inr (.inr hvalue)) value.mem_preorder_self
  have hbeside : d.Bystander argument :=
    .beside hf hfirst (.deeper (List.mem_of_getElem? hargs) (.sibling hchildren
      (Tree.mem_preorder_of_firstParameter? hfirst)
      (List.mem_append_right _ (List.mem_of_getElem? hargument)) argument.mem_preorder_self))
  have htm : mixed.tree.Sequenced := ⟨by decide, by decide, by decide⟩
  obtain ⟨c, c', hcs, hfailed⟩ : ∃ c c', declarations mixed.text mixed.tree = [c, c'] ∧
      (halfDone.convert c').2 = some (.unsupported .component .identifier 28) := by
    rw [declarations_eq_filterMap]
    exact ⟨_, _, rfl, rfl⟩
  have hc : c' ∈ declarations halfDone.source mixed.tree := by
    show c' ∈ declarations mixed.text mixed.tree
    simp [hcs]
  obtain ⟨hleft, -⟩ := convert_footprint halfDone mixed.tree c' htm hc
  exact ⟨ht, hb, ⟨d, hd, _, hfootprint, hconvert, rfl, out, hout,
    Except.ok.inj (hout.symm.trans hedit), value, argument, hpart, hvtext, hcarry _ hpart, hbeside,
    hatext, hcarry _ hbeside⟩, htm, c', hc, Prod.ext (hleft _ _ (Prod.ext rfl hfailed)) hfailed⟩

end PlainComponents
