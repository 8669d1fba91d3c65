import Mathlib.Data.Option.Basic
import PlainComponents.Component.Transform
import PlainComponents.Proofs.Tree.Preorder

/-!
# What a declaration and its edits consist of

Inversion lemmas: what must have been found in the tree for a declarator to declare a component, and
for a component to have edits.  Later arguments take a declaration apart with these lemmas and never
unfold how it was read.

* `declaration?_eq_some_iff` lists the children that a declaration is read off, as `Declared`;
* `Declared.exists_aliased` finds the name that spells the alias, below the annotation;
* `Declaration.edits_eq_ok` and `Parameter.annotateFirst_eq_ok` say which edits there can be.
-/

namespace PlainComponents

/-! ### Functions inside their wrappers -/

namespace FunctionNode

theorem findArgument?_eq (cs : List Tree) :
    findArgument? cs = (cs.find? fun c => c.label.field = some .arguments).bind fun a =>
      if a.kind = .arguments then a.firstProper?.bind find? else none := by
  induction cs with
  | nil => rfl
  | cons c cs ih =>
    obtain ⟨l, as⟩ := c
    by_cases h : l.field = some .arguments
    · by_cases hk : l.kind = .arguments <;>
        simp [findArgument?, h, hk, findFirst?_eq, Tree.firstProper?]
    · simp [findArgument?, h, ih]

/-- The function that a value wraps is one of its subtrees. -/
theorem mem_preorder_of_find? {t : Tree} {f : FunctionNode} (h : find? t = some f) :
    f.node ∈ t.preorder := by
  induction t using Tree.strongInductionOn generalizing f with
  | node l cs ih =>
    rw [find?] at h
    split at h
    · obtain rfl := Option.some.inj h
      exact Tree.mem_preorder_self _
    · obtain rfl := Option.some.inj h
      exact Tree.mem_preorder_self _
    · obtain rfl := Option.some.inj h
      exact Tree.mem_preorder_self _
    · rw [findFirst?_eq] at h
      obtain ⟨c, hc, hf⟩ := Option.bind_eq_some_iff.1 h
      have hc := List.mem_of_find?_eq_some hc
      exact Tree.mem_preorder_node.2 (.inr ⟨c, hc, ih c hc c c.mem_preorder_self hf⟩)
    · rw [findArgument?_eq] at h
      obtain ⟨g, hg, rfl⟩ := Option.map_eq_some_iff.1 h
      obtain ⟨a, ha, hga⟩ := Option.bind_eq_some_iff.1 hg
      have ha := List.mem_of_find?_eq_some ha
      split at hga
      · obtain ⟨c, hc, hgc⟩ := Option.bind_eq_some_iff.1 hga
        have hc := Tree.child_mem_preorder (Tree.mem_of_firstProper? hc)
        have hg : g.node ∈ c.preorder := ih a ha c hc hgc
        exact Tree.mem_preorder_node.2 (.inr ⟨a, ha, Tree.mem_preorder_trans hg hc⟩)
      · cases hga
    · cases h

end FunctionNode

/-! ### Declarations -/

namespace Declaration

/-- The children of a declarator that a declaration is read off. -/
structure Declared (src : Text) (t : Tree) (d : Declaration) (type leading : Tree) : Prop where
  declarator : d.declarator = t
  kind : t.kind = .variableDeclarator
  name : t.field? .name = some d.name
  name_kind : d.name.kind = .identifier
  ascription : t.field? .type = some d.ascription
  value : t.field? .value = some d.value
  first : d.ascription.firstProper? = some type
  leads : leading? type = some leading
  component : componentType? src leading = some (d.typeAlias, d.props)

/-- What is read off a node, whatever its kind. -/
theorem ofDeclarator?_eq_some_iff_fields {src : Text} {t : Tree} {d : Declaration} :
    ofDeclarator? src t = some d ↔ d.declarator = t ∧ t.field? .name = some d.name ∧
      d.name.kind = .identifier ∧ t.field? .type = some d.ascription ∧
      t.field? .value = some d.value ∧ ∃ type leading, d.ascription.firstProper? = some type ∧
        leading? type = some leading ∧ componentType? src leading = some (d.typeAlias, d.props) := by
  unfold ofDeclarator?
  constructor
  · intro h
    obtain ⟨name, hname, h⟩ := Option.bind_eq_some_iff.1 h
    obtain ⟨u, hg, h⟩ := Option.bind_eq_some_iff.1 h
    obtain ⟨ascription, hascription, h⟩ := Option.bind_eq_some_iff.1 h
    obtain ⟨value, hvalue, h⟩ := Option.bind_eq_some_iff.1 h
    obtain ⟨type, htype, h⟩ := Option.bind_eq_some_iff.1 h
    obtain ⟨leading, hleading, h⟩ := Option.bind_eq_some_iff.1 h
    obtain ⟨⟨typeAlias, props⟩, hc, h⟩ := Option.bind_eq_some_iff.1 h
    obtain rfl := Option.some.inj h
    exact ⟨rfl, hname, (Option.guard_eq_some' u).1 hg, hascription, hvalue, type, leading, htype,
      hleading, hc⟩
  · obtain ⟨typeAlias, declarator, name, ascription, value, props⟩ := d
    rintro ⟨h₁, h₂, h₃, h₄, h₅, type, leading, h₆, h₇, h₈⟩
    simp only at h₁ h₂ h₃ h₄ h₅ h₆ h₈
    simp [h₁, h₂, h₃, h₄, h₅, h₆, h₇, h₈, guard]

theorem ofDeclarator?_eq_some_iff {src : Text} {t : Tree} {d : Declaration}
    (hk : t.kind = .variableDeclarator) :
    ofDeclarator? src t = some d ↔ ∃ type leading, Declared src t d type leading := by
  rw [ofDeclarator?_eq_some_iff_fields]
  constructor
  · rintro ⟨h₁, h₂, h₃, h₄, h₅, type, leading, h₆, h₇, h₈⟩
    exact ⟨type, leading, h₁, hk, h₂, h₃, h₄, h₅, h₆, h₇, h₈⟩
  · rintro ⟨type, leading, h₁, -, h₂, h₃, h₄, h₅, h₆, h₇, h₈⟩
    exact ⟨h₁, h₂, h₃, h₄, h₅, type, leading, h₆, h₇, h₈⟩

end Declaration

open Declaration

theorem declaration?_eq_some_iff {src : Text} {t : Tree} {d : Declaration} :
    declaration? src t = some d ↔ ∃ type leading, Declared src t d type leading := by
  unfold declaration?
  split
  next hk => exact ofDeclarator?_eq_some_iff hk
  next hk =>
    constructor
    · intro h
      cases h
    · rintro ⟨type, leading, hd⟩
      exact absurd hd.kind hk

theorem declaration?_eq_none_of_not_declared {src : Text} {t : Tree}
    (h : ∀ d type leading, ¬ Declared src t d type leading) : declaration? src t = none := by
  cases hd : declaration? src t with
  | none => rfl
  | some d =>
    obtain ⟨type, leading, hd⟩ := declaration?_eq_some_iff.1 hd
    exact absurd hd (h d type leading)

theorem kind_of_declaration? {src : Text} {t : Tree} {d : Declaration}
    (h : declaration? src t = some d) : t.kind = .variableDeclarator := by
  obtain ⟨type, leading, hd⟩ := declaration?_eq_some_iff.1 h
  exact hd.kind

theorem declaration?_eq_none_of_kind {src : Text} {t : Tree} (h : t.kind ≠ .variableDeclarator) :
    declaration? src t = none := by
  rw [declaration?, if_neg h]

/-- No component is declared in the tree. -/
def Tree.Plain (src : Text) (t : Tree) : Prop :=
  ∀ n ∈ t.preorder, declaration? src n = none

theorem Tree.plain_of_forall_ne {src : Text} {t : Tree}
    (h : ∀ n ∈ t.preorder, ∀ d, declaration? src n ≠ some d) : t.Plain src := by
  intro n hn
  cases hd : declaration? src n with
  | none => rfl
  | some d => exact absurd hd (h n hn d)

theorem Tree.Plain.of_mem {src : Text} {n t : Tree} (h : t.Plain src) (hn : n ∈ t.preorder) :
    n.Plain src :=
  fun m hm => h m (Tree.mem_preorder_trans hm hn)

/-- A leaf declares nothing. -/
theorem Tree.plain_of_leaf {src : Text} {t : Tree} (h : t.children = []) : t.Plain src := by
  obtain ⟨l, cs⟩ := t
  obtain rfl : cs = [] := h
  intro n hn
  obtain rfl : n = .node l [] := by simpa [Tree.preorder_node] using hn
  refine declaration?_eq_none_of_not_declared fun d type leading hd => ?_
  exact absurd (Tree.mem_of_field? hd.name) List.not_mem_nil

theorem Tree.plain_of_kind {src : Text} {t : Tree}
    (h : ∀ n ∈ t.preorder, n.kind ≠ .variableDeclarator) : t.Plain src :=
  fun n hn => declaration?_eq_none_of_kind (h n hn)

theorem declarations_eq_nil_iff {src : Text} {t : Tree} :
    declarations src t = [] ↔ t.Plain src := by
  rw [declarations_eq_filterMap, List.filterMap_eq_nil_iff]
  rfl

theorem declarator_of_declaration? {src : Text} {t : Tree} {d : Declaration}
    (h : declaration? src t = some d) : d.declarator = t := by
  obtain ⟨type, leading, hd⟩ := declaration?_eq_some_iff.1 h
  exact hd.declarator

namespace Declaration

variable {src : Text} {t type leading : Tree} {d : Declaration}

theorem mem_preorder_of_leading? (h : leading? type = some leading) :
    leading ∈ type.preorder := by
  unfold leading? at h
  split at h
  · exact Tree.mem_preorder_of_mem_flatten (List.mem_of_head? h)
  · obtain rfl := Option.some.inj h
    exact Tree.mem_preorder_self _

/-- The alias of a type name is spelt by the name or by its last part. -/
theorem exists_aliased_of_typeAlias? {a : Alias} (h : typeAlias? src t = some a) :
    ∃ n ∈ t.preorder, Alias.ofText? (n.text src) = some a := by
  unfold typeAlias? at h
  split at h
  · exact ⟨t, t.mem_preorder_self, h⟩
  · obtain ⟨qualifier, -, h⟩ := Option.bind_eq_some_iff.1 h
    obtain ⟨u, -, h⟩ := Option.bind_eq_some_iff.1 h
    obtain ⟨name, hname, h⟩ := Option.bind_eq_some_iff.1 h
    exact ⟨name, Tree.child_mem_preorder (Tree.mem_of_field? hname), h⟩
  · cases h

theorem argument?_eq_some {props : Tree} (h : argument? t = some props) :
    ∃ arguments, t.field? .typeArguments = some arguments ∧
      arguments.firstProper? = some props ∧ props.kind.isPropsShape = true := by
  unfold argument? at h
  obtain ⟨arguments, ha, h⟩ := Option.bind_eq_some_iff.1 h
  obtain ⟨p, hp, h⟩ := Option.bind_eq_some_iff.1 h
  obtain ⟨u, hg, h⟩ := Option.bind_eq_some_iff.1 h
  obtain rfl := Option.some.inj h
  exact ⟨arguments, ha, hp, (Option.guard_eq_some' u).1 hg⟩

/-- A component type is a name that spells an alias, alone or applied to its props. -/
theorem componentType?_eq_some {a : Alias} {props : Option Tree}
    (h : componentType? src t = some (a, props)) :
    (t.kind = .genericType ∧ ∃ name p, t.field? .name = some name ∧
      typeAlias? src name = some a ∧ argument? t = some p ∧ props = some p) ∨
    (t.kind ≠ .genericType ∧ typeAlias? src t = some a ∧ props = none) := by
  unfold componentType? at h
  split at h
  next hk =>
    obtain ⟨name, hname, h⟩ := Option.bind_eq_some_iff.1 h
    obtain ⟨a', ha, h⟩ := Option.bind_eq_some_iff.1 h
    obtain ⟨p, hp, h⟩ := Option.bind_eq_some_iff.1 h
    cases h
    exact .inl ⟨hk, name, p, hname, ha, hp, rfl⟩
  next hk =>
    obtain ⟨a', ha, h⟩ := Option.bind_eq_some_iff.1 h
    cases h
    exact .inr ⟨hk, ha, rfl⟩

/-- Somewhere below the annotation stands the name that spells the alias. -/
theorem Declared.exists_aliased (hd : Declared src t d type leading) :
    ∃ n ∈ d.ascription.preorder, Alias.ofText? (n.text src) = some d.typeAlias := by
  have htype := Tree.child_mem_preorder (Tree.mem_of_firstProper? hd.first)
  have hleading := Tree.mem_preorder_trans (mem_preorder_of_leading? hd.leads) htype
  rcases componentType?_eq_some hd.component with ⟨-, name, p, hname, ha, -, -⟩ | ⟨-, ha, -⟩
  · obtain ⟨n, hn, hna⟩ := exists_aliased_of_typeAlias? ha
    have hname := Tree.child_mem_preorder (Tree.mem_of_field? hname)
    exact ⟨n, Tree.mem_preorder_trans hn (Tree.mem_preorder_trans hname hleading), hna⟩
  · obtain ⟨n, hn, hna⟩ := exists_aliased_of_typeAlias? ha
    exact ⟨n, Tree.mem_preorder_trans hn hleading, hna⟩

/-- The props stand below the annotation. -/
theorem Declared.props_mem (hd : Declared src t d type leading) {p : Tree} (hp : d.props = some p) :
    p ∈ d.ascription.preorder := by
  have htype := Tree.child_mem_preorder (Tree.mem_of_firstProper? hd.first)
  have hleading := Tree.mem_preorder_trans (mem_preorder_of_leading? hd.leads) htype
  rcases componentType?_eq_some hd.component with ⟨-, name, q, -, -, hq, hprops⟩ | ⟨-, -, hprops⟩
  · obtain rfl : p = q := Option.some.inj (hp.symm.trans hprops)
    obtain ⟨arguments, ha, hpa, -⟩ := argument?_eq_some hq
    have ha := Tree.child_mem_preorder (Tree.mem_of_field? ha)
    have hpa := Tree.child_mem_preorder (Tree.mem_of_firstProper? hpa)
    exact Tree.mem_preorder_trans hpa (Tree.mem_preorder_trans ha hleading)
  · cases hp.symm.trans hprops

end Declaration

/-! ### The first parameter -/

namespace Parameter

variable {src : Text} {props : PropsType} {function : Tree}

theorem text_ascribe (props : PropsType) (parameter pattern : Tree) :
    (ascribe props parameter pattern).text = ascription props := by
  unfold ascribe
  split <;> rfl

theorem annotateListed_of_pattern {first pattern : Tree}
    (hk : first.kind = .requiredParameter ∨ first.kind = .optionalParameter)
    (hp : first.field? .pattern = some pattern) : annotateListed src props first =
      (fun p => (p, ascribe props first pattern)) <$> ofPattern src pattern := by
  rcases hk with hk | hk <;> simp only [annotateListed, hk, hp] <;>
    cases ofPattern src pattern <;> rfl

theorem annotateListed_of_no_pattern {first : Tree}
    (h : ¬ ((first.kind = .requiredParameter ∨ first.kind = .optionalParameter) ∧
      ∃ pattern, first.field? .pattern = some pattern)) :
    annotateListed src props first = .error (.unsupported .firstParameter first.kind first.start) := by
  unfold annotateListed
  split
  next pattern hk hp => exact absurd ⟨.inl hk, pattern, hp⟩ h
  next pattern hk hp => exact absurd ⟨.inr hk, pattern, hp⟩ h
  next => rfl

theorem annotateListed_eq_ok {first : Tree} {r : Parameter × Edit}
    (h : annotateListed src props first = .ok r) :
    (first.kind = .requiredParameter ∨ first.kind = .optionalParameter) ∧
      ∃ pattern, first.field? .pattern = some pattern ∧ r.2 = ascribe props first pattern := by
  by_cases hentry : (first.kind = .requiredParameter ∨ first.kind = .optionalParameter) ∧
      ∃ pattern, first.field? .pattern = some pattern
  · obtain ⟨hk, pattern, hp⟩ := hentry
    rw [annotateListed_of_pattern hk hp] at h
    cases ho : ofPattern src pattern with
    | error f => rw [ho] at h; cases h
    | ok p => rw [ho] at h; cases h; exact ⟨hk, pattern, hp, rfl⟩
  · rw [annotateListed_of_no_pattern hentry] at h
    cases h

/-- The annotated parameter is the bare one or the first of the list. -/
theorem annotateFirst_eq_ok_some {p : Parameter} {e : Edit}
    (h : annotateFirst src props function = .ok (some (p, e))) :
    (∃ bare, function.field? .parameter = some bare ∧ e = parenthesize src props bare) ∨
    (function.field? .parameter = none ∧ ∃ list first pattern,
      function.field? .parameters = some list ∧ list.firstProper? = some first ∧
      (first.kind = .requiredParameter ∨ first.kind = .optionalParameter) ∧
      first.field? .pattern = some pattern ∧ e = ascribe props first pattern) := by
  unfold annotateFirst at h
  split at h
  next bare hbare =>
    cases ho : ofPattern src bare with
    | error f => rw [ho] at h; cases h
    | ok q => rw [ho] at h; cases h; exact .inl ⟨bare, hbare, rfl⟩
  next hbare =>
    split at h
    · cases h
    next list hlist =>
    split at h
    · cases h
    next first hfirst =>
    cases ho : annotateListed src props first with
    | error f => rw [ho] at h; cases h
    | ok r =>
      rw [ho] at h
      cases h
      obtain ⟨hk, pattern, hp, he⟩ := annotateListed_eq_ok ho
      exact .inr ⟨hbare, list, first, pattern, hlist, hfirst, hk, hp, he⟩

/-- There is nothing to annotate only if the parameter list is empty. -/
theorem annotateFirst_eq_ok_none (h : annotateFirst src props function = .ok none) :
    function.field? .parameter = none ∧
      ∃ list, function.field? .parameters = some list ∧ list.firstProper? = none := by
  unfold annotateFirst at h
  split at h
  next bare hbare =>
    cases ho : ofPattern src bare <;> rw [ho] at h <;> cases h
  next hbare =>
    split at h
    · cases h
    next list hlist =>
    split at h
    next hfirst => exact ⟨hbare, list, hlist, hfirst⟩
    next first hfirst =>
      cases ho : annotateListed src props first <;> rw [ho] at h <;> cases h

end Parameter

/-! ### The edits of a component -/

namespace Declaration

/-- The edits that convert one component, whatever else is queued. -/
def edits (src : Text) (d : Declaration) : Except Failure (List Edit) :=
  match d.props with
  | none => .ok [d.removal]
  | some props => do
    let move ← d.relocation src props
    match move.first with
    | none => return [d.removal]
    | some (_, edit) => return [edit, d.removal]

/-- How the props of a component reach its function, as far as the edits show. -/
inductive Relocated (src : Text) (d : Declaration) (es : List Edit) : Prop
  /-- There are no props. -/
  | bare (h : d.props = none) (he : es = [d.removal])
  /-- The function takes no parameters. -/
  | unused {p : Tree} {props : PropsType} {f : FunctionNode} (hp : d.props = some p)
      (hprops : PropsType.ofTree src p = .ok props) (hf : FunctionNode.find? d.value = some f)
      (h : Parameter.annotateFirst src props f.node = .ok none) (he : es = [d.removal])
  /-- The first parameter is annotated. -/
  | annotated {p : Tree} {props : PropsType} {f : FunctionNode} {q : Parameter} {e : Edit}
      (hp : d.props = some p) (hprops : PropsType.ofTree src p = .ok props)
      (hf : FunctionNode.find? d.value = some f)
      (h : Parameter.annotateFirst src props f.node = .ok (some (q, e)))
      (he : es = [e, d.removal])

theorem edits_eq_ok {src : Text} {d : Declaration} {es : List Edit} (h : d.edits src = .ok es) :
    Relocated src d es := by
  unfold edits at h
  split at h
  next hp => exact .bare hp (Except.ok.inj h).symm
  next p hp =>
    unfold relocation at h
    cases hf : FunctionNode.find? d.value with
    | none => rw [hf] at h; cases h
    | some f =>
      rw [hf] at h
      cases hprops : PropsType.ofTree src p with
      | error e => simp [hprops, bind, Except.bind] at h
      | ok props =>
        cases ha : Parameter.annotateFirst src props f.node with
        | error e => simp [hprops, ha, bind, Except.bind] at h
        | ok first =>
          cases first with
          | none =>
            have he : [d.removal] = es := by
              simpa [hprops, ha, bind, Except.bind, pure, Except.pure] using h
            exact .unused hp hprops hf ha he.symm
          | some r =>
            obtain ⟨q, e⟩ := r
            have he : [e, d.removal] = es := by
              simpa [hprops, ha, bind, Except.bind, pure, Except.pure] using h
            exact .annotated hp hprops hf ha he.symm

end Declaration

/-- Converting a component queues its edits, or none of them if it fails: all that can fail comes before
the first edit. -/
theorem Draft.convert_eq (draft : Draft) (d : Declaration) : draft.convert d =
    match d.edits draft.source with
    | .ok es => ({ draft with edits := draft.edits ++ es }, none)
    | .error failure => (draft, some failure) := by
  unfold convert Declaration.edits
  cases d.props with
  | none => rfl
  | some props =>
    dsimp only
    unfold moveProps
    cases d.relocation draft.source props with
    | error failure => rfl
    | ok move =>
      obtain ⟨function, type, first⟩ := move
      cases first with
      | none => rfl
      | some first => simp [push, bind, Except.bind, pure, Except.pure]

end PlainComponents
