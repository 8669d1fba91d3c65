import Mathlib
import PlainComponents.Proofs.Component.Declared
import PlainComponents.Proofs.Text.Splice
import PlainComponents.Proofs.Tree.Concrete

/-!
# All or nothing

Components share a draft while a source is converted, but what happens to one of them never depends
on the others.  `Declaration.alone` judges a component by itself, with nothing queued.  A conversion
then has exactly the outcome that these judgements add up to:

* the first failing judgement is the failure of the whole source, whatever was queued before;
* if none fails, the edits of all the judgements, one after the other, are carried out at once.

The invariant behind both is `convertAll_of_ok`: queueing components appends the edits of their
judgements to what was queued, and leaves the source alone.
-/

namespace PlainComponents

namespace Declaration

/-- The edits that a component gets by itself, in a draft with nothing queued. -/
def alone (src : Text) (d : Declaration) : Except Failure (List Edit) :=
  match (Draft.ofSource src).convert d with
  | (draft, none) => .ok draft.edits
  | (_, some failure) => .error failure

theorem alone_eq_edits (src : Text) (d : Declaration) : d.alone src = d.edits src := by
  unfold alone Draft.ofSource
  rw [Draft.convert_eq]
  cases d.edits src <;> rfl

/-! ### Offsets of the edits -/

/-- The removal of a component takes at least its alias out of the declarator. -/
theorem Declared.removal_bounds {src : Text} {t type leading : Tree} {d : Declaration}
    (hd : Declared src t d type leading) (hs : t.WellSpaced) (horder : t.Precedes .name .type) :
    t.start ≤ d.name.stop ∧ d.name.stop ≤ d.ascription.start ∧ d.name.stop < d.ascription.stop ∧
      d.ascription.stop ≤ t.stop := by
  have hname := hs.bounds (Tree.child_mem_preorder (Tree.mem_of_field? hd.name))
  have hmem := Tree.child_mem_preorder (Tree.mem_of_field? hd.ascription)
  have hascription := hs.bounds hmem
  have hle := horder.stop_le hs hd.name hd.ascription
  obtain ⟨n, hn, ha⟩ := hd.exists_aliased
  have hbounds := (hs.of_mem hmem).bounds hn
  -- an empty node spells no alias
  have hne : n.start < n.stop := by
    by_contra hge
    rw [Tree.text, Text.slice_eq_nil (by omega)] at ha
    cases ha
  omega

/-- The edit that annotates a parameter starts and stops where nodes of the function do. -/
theorem onBoundaries_annotateFirst {src : Text} {function : Tree} {props : PropsType}
    {p : Parameter} {e : Edit} (hb : function.OnBoundaries src)
    (h : Parameter.annotateFirst src props function = .ok (some (p, e))) :
    src.isBoundary e.start ∧ src.isBoundary e.stop := by
  have hchild : ∀ {n c : Tree}, n ∈ function.preorder → c ∈ n.children →
      src.isBoundary c.start ∧ src.isBoundary c.stop := fun hn hc =>
    hb _ (Tree.mem_preorder_trans (Tree.child_mem_preorder hc) hn)
  rcases Parameter.annotateFirst_eq_ok_some h with
    ⟨bare, hbare, rfl⟩ | ⟨-, list, first, pattern, hlist, hfirst, -, hpattern, rfl⟩
  · exact hchild function.mem_preorder_self (Tree.mem_of_field? hbare)
  · have hlist := Tree.child_mem_preorder (Tree.mem_of_field? hlist)
    have hfirst := Tree.mem_preorder_trans
      (Tree.child_mem_preorder (Tree.mem_of_firstProper? hfirst)) hlist
    unfold Parameter.ascribe
    split
    next type htype => exact hchild hfirst (Tree.mem_of_field? htype)
    next =>
      -- the annotation is written behind a node, so only its end counts
      cases hq : first.token? (.other "?") with
      | none =>
        have := hchild hfirst (Tree.mem_of_field? hpattern)
        exact ⟨this.2, this.2⟩
      | some question =>
        have := hchild hfirst (Tree.mem_of_token? hq)
        exact ⟨this.2, this.2⟩

/-- The edits of a component start and stop where nodes of its declarator do. -/
theorem onBoundaries_edits {src : Text} {t : Tree} {d : Declaration} {es : List Edit}
    (hd : declaration? src t = some d) (hb : t.OnBoundaries src) (h : d.edits src = .ok es) :
    Edit.OnBoundaries src es := by
  obtain ⟨type, leading, hd⟩ := declaration?_eq_some_iff.1 hd
  have hone : Edit.OnBoundaries src [d.removal] := by
    intro e he
    obtain rfl := List.mem_singleton.1 he
    exact ⟨(hb _ (Tree.child_mem_preorder (Tree.mem_of_field? hd.name))).2,
      (hb _ (Tree.child_mem_preorder (Tree.mem_of_field? hd.ascription))).2⟩
  cases edits_eq_ok h with
  | bare _ he => exact he ▸ hone
  | unused _ _ _ _ he => exact he ▸ hone
  | annotated _ _ hf ha he =>
    have hfunction := Tree.mem_preorder_of_mem_children
      (Tree.mem_of_field? hd.value) (FunctionNode.mem_preorder_of_find? hf)
    subst he
    intro x hx
    rcases List.mem_cons.1 hx with rfl | hx
    · exact onBoundaries_annotateFirst (hb.of_mem hfunction) ha
    · exact hone x hx

end Declaration

/-- The components have the given edits, each judged by itself. -/
def Judged (src : Text) (ds : List Declaration) (parts : List (List Edit)) : Prop :=
  List.Forall₂ (fun d es => d.alone src = .ok es) ds parts

theorem Judged.exists_declaration {src : Text} {ds : List Declaration} {parts : List (List Edit)}
    (h : Judged src ds parts) : ∀ es ∈ parts, ∃ d ∈ ds, d.alone src = .ok es := by
  unfold Judged at h
  induction h with
  | nil => simp
  | @cons d es ds parts hd _ ih =>
    intro fs hfs
    rcases List.mem_cons.1 hfs with rfl | hfs
    · exact ⟨d, List.mem_cons_self, hd⟩
    · obtain ⟨c, hc, hcf⟩ := ih fs hfs
      exact ⟨c, List.mem_cons_of_mem _ hc, hcf⟩

theorem Judged.exists_edits {src : Text} {ds : List Declaration} {parts : List (List Edit)}
    (h : Judged src ds parts) : ∀ d ∈ ds, ∃ es, d.alone src = .ok es := by
  unfold Judged at h
  induction h with
  | nil => simp
  | @cons d es ds parts hd _ ih =>
    intro c hc
    rcases List.mem_cons.1 hc with rfl | hc
    · exact ⟨es, hd⟩
    · exact ih c hc

/-! ### Queueing components -/

namespace Draft

theorem convert_of_ok {draft : Draft} {d : Declaration} {es : List Edit}
    (h : d.alone draft.source = .ok es) :
    draft.convert d = ({ draft with edits := draft.edits ++ es }, none) := by
  rw [Declaration.alone_eq_edits] at h
  rw [convert_eq, h]

theorem convert_of_error {draft : Draft} {d : Declaration} {failure : Failure}
    (h : d.alone draft.source = .error failure) : draft.convert d = (draft, some failure) := by
  rw [Declaration.alone_eq_edits] at h
  rw [convert_eq, h]

/-- Queueing components that can all be converted appends their edits. -/
theorem convertAll_of_ok {ds : List Declaration} {parts : List (List Edit)} (draft : Draft)
    (h : Judged draft.source ds parts) :
    draft.convertAll ds = ({ draft with edits := draft.edits ++ parts.flatten }, none) := by
  induction ds generalizing draft parts with
  | nil =>
    cases h
    simp [convertAll]
  | cons d ds ih =>
    cases h with
    | @cons _ es _ parts hd hds =>
      -- the source is the same after the step, so the later judgements stand
      have hrest := ih { draft with edits := draft.edits ++ es } hds
      simp only [convertAll, convert_of_ok hd, hrest, List.flatten_cons, List.append_assoc]

/-- The first component that fails by itself stops the queueing with its failure. -/
theorem convertAll_of_error {before : List Declaration} {d : Declaration} {failure : Failure}
    (draft : Draft) (after : List Declaration)
    (hbefore : ∀ b ∈ before, ∃ es, b.alone draft.source = .ok es)
    (hd : d.alone draft.source = .error failure) :
    (draft.convertAll (before ++ d :: after)).2 = some failure := by
  induction before generalizing draft with
  | nil => simp only [List.nil_append, convertAll, convert_of_error hd]
  | cons b before ih =>
    obtain ⟨es, hes⟩ := hbefore b List.mem_cons_self
    simp only [List.cons_append, convertAll, convert_of_ok hes]
    exact ih { draft with edits := draft.edits ++ es }
      (fun c hc => hbefore c (List.mem_cons_of_mem _ hc)) hd

end Draft

/-- Either every component has edits by itself, or there is a first one that has none. -/
theorem judged_or_fails (src : Text) (ds : List Declaration) :
    (∃ parts, Judged src ds parts) ∨
    ∃ before d after failure, ds = before ++ d :: after ∧
      (∀ b ∈ before, ∃ es, b.alone src = .ok es) ∧ d.alone src = .error failure := by
  induction ds with
  | nil => exact .inl ⟨[], .nil⟩
  | cons d ds ih =>
    cases hd : d.alone src with
    | error failure => exact .inr ⟨[], d, ds, failure, rfl, by simp, hd⟩
    | ok es =>
      rcases ih with ⟨parts, hparts⟩ | ⟨before, c, after, failure, rfl, hbefore, hc⟩
      · exact .inl ⟨es :: parts, .cons hd hparts⟩
      · refine .inr ⟨d :: before, c, after, failure, rfl, fun b hb => ?_, hc⟩
        rcases List.mem_cons.1 hb with rfl | hb
        · exact ⟨es, hd⟩
        · exact hbefore b hb

theorem exists_judged {src : Text} {ds : List Declaration}
    (h : ∀ d ∈ ds, ∃ es, d.alone src = .ok es) : ∃ parts, Judged src ds parts := by
  rcases judged_or_fails src ds with hp | ⟨before, d, after, failure, rfl, -, hd⟩
  · exact hp
  · obtain ⟨es, hes⟩ := h d (by simp)
    cases hd.symm.trans hes

/-! ### Outcomes of a conversion -/

section Outcomes

variable {src : Text} {tree : Tree}

theorem firstFault?_of_hasError (h : tree.label.hasError = true) :
    ∃ fault, tree.firstFault? = some fault := by
  obtain ⟨l, cs⟩ := tree
  have h : l.hasError = true := h
  by_cases hf : (l.isError || l.isMissing) = true
  · exact ⟨.node l cs, by simp [Tree.firstFault?, h, hf]⟩
  · exact ⟨(Tree.firstFaultIn? cs).getD (.node l cs), by simp [Tree.firstFault?, h, hf]⟩

theorem firstFault?_of_not_hasError (h : tree.label.hasError = false) :
    tree.firstFault? = none := by
  obtain ⟨l, cs⟩ := tree
  have h : l.hasError = false := h
  simp [Tree.firstFault?, h]

theorem hasError_of_transform_eq_ok {out : Option Text} (h : transform src tree = .ok out) :
    tree.label.hasError = false := by
  cases herror : tree.label.hasError with
  | false => rfl
  | true =>
    obtain ⟨fault, hf⟩ := firstFault?_of_hasError herror
    rw [transform, hf] at h
    cases h

/-- Without faults, the declarations decide. -/
theorem transform_of_declarations (h : tree.label.hasError = false)
    (hds : declarations src tree ≠ []) :
    transform src tree = some <$> convertDeclarations src (declarations src tree) := by
  rw [transform, firstFault?_of_not_hasError h]
  cases hd : declarations src tree with
  | nil => exact absurd hd hds
  | cons d ds => rfl

theorem transform_of_no_declarations (h : tree.label.hasError = false)
    (hds : declarations src tree = []) : transform src tree = .ok none := by
  rw [transform, firstFault?_of_not_hasError h, hds]

theorem convertDeclarations_of_ok {ds : List Declaration} {parts : List (List Edit)}
    (h : Judged src ds parts) :
    convertDeclarations src ds = (src.edit parts.flatten).mapError .edits := by
  rw [convertDeclarations, Draft.convertAll_of_ok (Draft.ofSource src) h]
  rfl

theorem convertDeclarations_of_error {before : List Declaration} {d : Declaration}
    {failure : Failure} (after : List Declaration)
    (hbefore : ∀ b ∈ before, ∃ es, b.alone src = .ok es) (hd : d.alone src = .error failure) :
    convertDeclarations src (before ++ d :: after) = .error failure := by
  have h := Draft.convertAll_of_error (Draft.ofSource src) after hbefore hd
  unfold convertDeclarations
  split
  next draft hdraft => rw [hdraft] at h; cases h
  next draft f hdraft => rw [hdraft] at h; cases h; rfl

/-- A converted text comes from the edits of all the declarations. -/
theorem exists_judged_of_transform_eq_ok {out : Text} (h : transform src tree = .ok (some out)) :
    ∃ parts, Judged src (declarations src tree) parts ∧ src.edit parts.flatten = .ok out := by
  have herror := hasError_of_transform_eq_ok h
  have hds : declarations src tree ≠ [] := by
    intro hnil
    rw [transform_of_no_declarations herror hnil] at h
    cases h
  rw [transform_of_declarations herror hds] at h
  rcases judged_or_fails src (declarations src tree) with
    ⟨parts, hparts⟩ | ⟨before, c, after, failure, hsplit, hbefore, hc⟩
  · refine ⟨parts, hparts, ?_⟩
    rw [convertDeclarations_of_ok hparts] at h
    cases hedit : src.edit parts.flatten with
    | error e => rw [hedit] at h; cases h
    | ok u => rw [hedit] at h; cases h; rfl
  · rw [hsplit, convertDeclarations_of_error after hbefore hc] at h
    cases h

theorem onBoundaries_judged {parts : List (List Edit)} (hb : tree.OnBoundaries src)
    (h : Judged src (declarations src tree) parts) : Edit.OnBoundaries src parts.flatten := by
  intro e he
  obtain ⟨es, hes, he⟩ := List.mem_flatten.1 he
  obtain ⟨d, hd, hde⟩ := h.exists_declaration es hes
  obtain ⟨n, hn, hdn⟩ := mem_declarations.1 hd
  rw [Declaration.alone_eq_edits] at hde
  exact Declaration.onBoundaries_edits hdn (hb.of_mem hn) hde e he

/-- **A source is converted as a whole or not at all**, and what happens to it is decided component by
component.  A fault of the tree comes first.  Otherwise the first component that fails by itself gives
the failure; if none fails, the edits of all of them are carried out together, and then only a clash can
stop the conversion of a source whose tree points into it. -/
theorem transform_all_or_nothing (src : Text) (tree : Tree) :
    (tree.label.hasError = true → ∃ fault, tree.firstFault? = some fault ∧
      transform src tree = .error (.fault fault.start)) ∧
    (tree.label.hasError = false →
      (transform src tree = .ok none ↔ declarations src tree = []) ∧
      (∀ before d after failure, declarations src tree = before ++ d :: after →
        (∀ b ∈ before, ∃ es, b.alone src = .ok es) → d.alone src = .error failure →
        transform src tree = .error failure) ∧
      (declarations src tree ≠ [] → (∀ d ∈ declarations src tree, ∃ es, d.alone src = .ok es) →
        ∃ parts, Judged src (declarations src tree) parts ∧
          transform src tree = some <$> (src.edit parts.flatten).mapError .edits ∧
          (∀ role kind offset, transform src tree ≠ .error (.unsupported role kind offset)) ∧
          (tree.OnBoundaries src → (∃ out, transform src tree = .ok (some out)) ∨
            ∃ offset, transform src tree = .error (.edits (.clash offset)))) ∧
      (∀ out, transform src tree = .ok (some out) → ∃ parts,
        Judged src (declarations src tree) parts ∧ src.edit parts.flatten = .ok out)) := by
  refine ⟨fun herror => ?_, fun herror => ⟨⟨fun h => ?_, ?_⟩, ?_, ?_, ?_⟩⟩
  · obtain ⟨fault, hf⟩ := firstFault?_of_hasError herror
    exact ⟨fault, hf, by rw [transform, hf]⟩
  · by_contra hds
    rw [transform_of_declarations herror hds] at h
    cases hc : convertDeclarations src (declarations src tree) <;> rw [hc] at h <;> cases h
  · exact transform_of_no_declarations herror
  · intro before d after failure hsplit hbefore hd
    rw [transform_of_declarations herror (by simp [hsplit]), hsplit,
      convertDeclarations_of_error after hbefore hd]
    rfl
  · intro hds hall
    obtain ⟨parts, hparts⟩ := exists_judged hall
    have h : transform src tree = some <$> (src.edit parts.flatten).mapError .edits := by
      rw [transform_of_declarations herror hds, convertDeclarations_of_ok hparts]
    refine ⟨parts, hparts, h, ?_, ?_⟩
    · intro role kind offset
      rw [h]
      cases src.edit parts.flatten <;> exact fun h => by cases h
    · intro hb
      have hend := Text.edit_ne_beyondEnd (onBoundaries_judged hb hparts)
      rw [h]
      cases hedit : src.edit parts.flatten with
      | ok out => exact .inl ⟨out, rfl⟩
      | error e =>
        cases e with
        | clash offset => exact .inr ⟨offset, rfl⟩
        | beyondEnd => exact absurd hedit hend
  · exact fun out => exists_judged_of_transform_eq_ok

open Concrete in
/-- `const A: FC = a, B: FC<P> = b`, where the second component is no function. -/
def mixed : Concrete :=
  constants [declarator "A" (leaf .typeIdentifier none "FC") (leaf .identifier (some .value) "a"),
    token ",", space,
    declarator "B" (application "FC" (leaf .typeIdentifier none "P"))
      (leaf .identifier (some .value) "b")]

open Concrete in
/-- `const X: FC<P> = p => p`. -/
def single : Concrete :=
  constants [declarator "X" (application "FC" (leaf .typeIdentifier none "P"))
    (arrow (some .value) "p" (leaf .identifier none "p"))]

/-- `single` with a fault. -/
def faulty : Tree :=
  .node { single.tree.label with hasError := true } single.tree.children

/-- The second component of `mixed` fails, although the first one can be converted, and `single` is
converted with the edits of its only component, unless its tree has a fault. -/
theorem mixed_fails_single_converted :
    (∃ fault, faulty.firstFault? = some fault ∧
      transform single.text faulty = .error (.fault fault.start)) ∧
    transform mixed.text mixed.tree = .error (.unsupported .component .identifier 28) ∧
    (∃ parts, Judged single.text (declarations single.text single.tree) parts ∧
      single.text.edit parts.flatten = .ok "const X = (p: P) => p".toList) ∧
    ((∃ out, transform single.text single.tree = .ok (some out)) ∨
      ∃ offset, transform single.text single.tree = .error (.edits (.clash offset))) := by
  obtain ⟨hfault, -⟩ := transform_all_or_nothing single.text faulty
  obtain ⟨-, hmixed⟩ := transform_all_or_nothing mixed.text mixed.tree
  obtain ⟨-, hfirst, -, -⟩ := hmixed rfl
  obtain ⟨-, hsingle⟩ := transform_all_or_nothing single.text single.tree
  obtain ⟨-, -, hall, hout⟩ := hsingle rfl
  refine ⟨hfault rfl, ?_, hout _ (by cbv), ?_⟩
  · obtain ⟨a, b, hab, ⟨es, ha⟩, hb⟩ : ∃ a b, declarations mixed.text mixed.tree = [a, b] ∧
        (∃ es, a.alone mixed.text = .ok es) ∧
        b.alone mixed.text = .error (.unsupported .component .identifier 28) := by
      rw [declarations_eq_filterMap]
      exact ⟨_, _, rfl, ⟨_, rfl⟩, rfl⟩
    refine hfirst [a] b [] _ hab (fun c hc => ?_) hb
    obtain rfl := List.mem_singleton.1 hc
    exact ⟨es, ha⟩
  · obtain ⟨d, hd, es, hes⟩ : ∃ d, declarations single.text single.tree = [d] ∧
        ∃ es, d.alone single.text = .ok es := by
      rw [declarations_eq_filterMap]
      exact ⟨_, rfl, _, rfl⟩
    obtain ⟨parts, -, -, -, h⟩ := hall (by simp [hd]) (by simp [hd, hes])
    exact h (by decide)

end Outcomes

end PlainComponents
