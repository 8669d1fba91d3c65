import Mathlib.Data.List.Forall2
import PlainComponents.Proofs.Component.Declared
import PlainComponents.Proofs.Traversal
import PlainComponents.Proofs.Tree.Concrete

/-!
# The grammar of component types

Which declarators declare a component is a matter of a small grammar: a type that decides (`Leads`), a
name that spells an alias (`Names`), alone or applied to props (`ComponentType`).  Here it is stated for
itself, over the children of nodes as they stand, and shown to be what the analysis accepts.

* `ofDeclarator?_eq_some_iff_grammar` is the grammar of a declarator;
* `leading?_eq_some_iff_leads` finds the leftmost member of an intersection, nested to any depth;
* what else stands in the declarator does not matter: `aliasAndProps?_of_decidedBy` reads alias and
  props off the type that decides;
* types that look the same to the grammar (`Faithful`) read the same, for instance the same type written
  at another place (`Twin`).
-/

namespace PlainComponents

open PlainComponents.Tree

/-! ### Aliases -/

/-- The spelling of an alias. -/
inductive Alias.Spelt : Alias → Text → Prop
  | fc : Spelt .fc "FC".toList
  | sfc : Spelt .sfc "SFC".toList
  | functionComponent : Spelt .functionComponent "FunctionComponent".toList

theorem Alias.ofText?_eq_some_iff {t : Text} {a : Alias} : Alias.ofText? t = some a ↔ a.Spelt t := by
  constructor
  · intro h
    have hname : a.name.toList = t := by simpa using List.find?_some h
    subst hname
    cases a with
    | fc => exact .fc
    | sfc => exact .sfc
    | functionComponent => exact .functionComponent
  · intro h
    cases h <;> rfl

namespace Declaration

variable {src src' : Text} {t t' m m' type : Tree} {a : Alias} {props : Option Tree}
  {d : Declaration}

/-- A type name that spells an alias, with at most one namespace. -/
inductive Names (src : Text) (t : Tree) (a : Alias) : Prop
  | plain (hk : t.kind = .typeIdentifier) (h : a.Spelt (t.text src))
  | qualified {qualifier name : Tree} (hk : t.kind = .nestedTypeIdentifier)
      (hq : t.IsFirst (Playing .module) qualifier) (hqk : qualifier.kind = .identifier)
      (hn : t.IsFirst (Playing .name) name) (h : a.Spelt (name.text src))

theorem typeAlias?_eq_some_iff : typeAlias? src t = some a ↔ Names src t a := by
  constructor
  · intro h
    unfold typeAlias? at h
    split at h
    next hk => exact .plain hk (Alias.ofText?_eq_some_iff.1 h)
    next hk =>
      obtain ⟨qualifier, hq, h⟩ := Option.bind_eq_some_iff.1 h
      obtain ⟨u, hg, h⟩ := Option.bind_eq_some_iff.1 h
      obtain ⟨name, hn, h⟩ := Option.bind_eq_some_iff.1 h
      exact .qualified hk (field?_eq_some_iff.1 hq) ((Option.guard_eq_some' u).1 hg)
        (field?_eq_some_iff.1 hn) (Alias.ofText?_eq_some_iff.1 h)
    next => cases h
  · intro h
    cases h with
    | plain hk h => simp only [typeAlias?, hk, Alias.ofText?_eq_some_iff.2 h]
    | qualified hk hq hqk hn h =>
      simp [typeAlias?, hk, field?_eq_some_iff.2 hq, hqk, field?_eq_some_iff.2 hn, guard,
        Alias.ofText?_eq_some_iff.2 h]

/-! ### Types that decide -/

/-- An intersection without members, however it is nested. -/
inductive Hollow : Tree → Prop
  | intro {t : Tree} (hk : t.kind = .intersectionType)
      (h : ∀ c ∈ t.children, c.Counts → Hollow c) : Hollow t

/-- The type `m` decides about `t`: it is `t` itself or, if that is an intersection, the leftmost member
that is none. -/
inductive Leads : Tree → Tree → Prop
  | self {t : Tree} (hk : t.kind ≠ .intersectionType) : Leads t t
  | member {t c m : Tree} {before after : List Tree} (hk : t.kind = .intersectionType)
      (hcs : t.children = before ++ c :: after) (hbefore : ∀ b ∈ before, b.Counts → Hollow b)
      (hc : c.Counts) (h : Leads c m) : Leads t m

theorem leading?_of_ne (hk : t.kind ≠ .intersectionType) : leading? t = some t :=
  if_neg hk

/-- In an intersection the first child that a type can be read off decides. -/
theorem leading?_of_intersection (hk : t.kind = .intersectionType) :
    leading? t = t.children.findSome? fun c => if c.isProper then leading? c else none := by
  rw [leading?, if_pos hk, flatten_eq_flatMap, List.head?_flatMap]
  congr 1
  funext c
  by_cases hc : c.isProper
  · rw [if_pos hc, if_pos hc, operands, leading?]
    split
    · rfl
    · rfl
  · rw [if_neg hc, if_neg hc, List.head?_nil]

theorem leading?_eq_none_iff_hollow : leading? t = none ↔ Hollow t := by
  induction t using Tree.inductionOn with
  | node l cs ih =>
    by_cases hk : (node l cs).kind = .intersectionType
    · rw [leading?_of_intersection hk, List.findSome?_eq_none_iff]
      constructor
      · intro h
        refine .intro hk fun c hc hcounts => ?_
        have hnone := h c hc
        rw [if_pos (isProper_iff.2 hcounts)] at hnone
        exact (ih c hc).1 hnone
      · rintro ⟨-, h⟩ c hc
        split
        next hproper => exact (ih c hc).2 (h c hc (isProper_iff.1 hproper))
        next => rfl
    · rw [leading?_of_ne hk]
      constructor
      · intro h
        cases h
      · rintro ⟨hk', -⟩
        exact absurd hk' hk

theorem leading?_eq_some_iff_leads : leading? t = some m ↔ Leads t m := by
  constructor
  · intro h
    induction t using Tree.inductionOn with
    | node l cs ih =>
      by_cases hk : (node l cs).kind = .intersectionType
      · rw [leading?_of_intersection hk, List.findSome?_eq_some_iff] at h
        obtain ⟨before, c, after, hcs, hm, hbefore⟩ := h
        rw [children_node] at hcs
        split at hm
        next hproper =>
          refine .member hk hcs ?_ (isProper_iff.1 hproper) (ih c (by simp [hcs]) hm)
          intro b hb hcounts
          have hnone := hbefore b hb
          rw [if_pos (isProper_iff.2 hcounts)] at hnone
          exact leading?_eq_none_iff_hollow.1 hnone
        next => cases hm
      · rw [leading?_of_ne hk] at h
        obtain rfl := Option.some.inj h
        exact .self hk
  · intro h
    induction h with
    | self hk => exact leading?_of_ne hk
    | @member t c m before after hk hcs hbefore hc _ ih =>
      rw [leading?_of_intersection hk, List.findSome?_eq_some_iff]
      refine ⟨before, c, after, hcs, ?_, ?_⟩
      · rw [if_pos (isProper_iff.2 hc), ih]
      · intro b hb
        split
        next hproper =>
          exact leading?_eq_none_iff_hollow.2 (hbefore b hb (isProper_iff.1 hproper))
        next => rfl

/-! ### Component types -/

/-- A component type: a name that spells an alias, alone or applied to props. -/
inductive ComponentType (src : Text) (t : Tree) (a : Alias) : Option Tree → Prop
  | bare (h : Names src t a) : ComponentType src t a none
  | applied {name arguments props : Tree} (hk : t.kind = .genericType)
      (hn : t.IsFirst (Playing .name) name) (h : Names src name a)
      (ha : t.IsFirst (Playing .typeArguments) arguments) (hp : arguments.IsFirst Counts props)
      (hshape : props.kind ∈ [Kind.typeIdentifier, .nestedTypeIdentifier, .genericType, .objectType,
        .intersectionType]) : ComponentType src t a (some props)

theorem isPropsShape_iff {k : Kind} : k.isPropsShape = true ↔
    k ∈ [Kind.typeIdentifier, .nestedTypeIdentifier, .genericType, .objectType, .intersectionType] := by
  cases k <;> simp [Kind.isPropsShape, Kind.isTypeReference]

theorem componentType?_eq_some_iff :
    componentType? src t = some (a, props) ↔ ComponentType src t a props := by
  constructor
  · intro h
    rcases componentType?_eq_some h with ⟨hk, name, p, hn, ha, hp, rfl⟩ | ⟨-, ha, rfl⟩
    · obtain ⟨arguments, hargs, hfirst, hshape⟩ := argument?_eq_some hp
      exact .applied hk (field?_eq_some_iff.1 hn) (typeAlias?_eq_some_iff.1 ha)
        (field?_eq_some_iff.1 hargs) (firstProper?_eq_some_iff.1 hfirst) (isPropsShape_iff.1 hshape)
    · exact .bare (typeAlias?_eq_some_iff.1 ha)
  · intro h
    cases h with
    | bare h =>
      have ha := typeAlias?_eq_some_iff.2 h
      unfold componentType?
      split
      next hk =>
        -- an applied type is no name
        cases h with
        | plain hk' _ => cases hk.symm.trans hk'
        | qualified hk' _ _ _ _ => cases hk.symm.trans hk'
      next => simp [ha]
    | applied hk hn h ha hp hshape =>
      simp [componentType?, argument?, hk, field?_eq_some_iff.2 hn, typeAlias?_eq_some_iff.2 h,
        field?_eq_some_iff.2 ha, firstProper?_eq_some_iff.2 hp, isPropsShape_iff.2 hshape, guard]

/-! ### Declarators -/

/-- The node has the name, the type and the value that a component needs, and `m` decides about the
type. -/
structure DecidedBy (t m : Tree) : Prop where
  name : ∃ name, t.IsFirst (Playing .name) name ∧ name.kind = .identifier
  type : ∃ ascription type, t.IsFirst (Playing .type) ascription ∧
    ascription.IsFirst Counts type ∧ Leads type m
  value : ∃ value, t.IsFirst (Playing .value) value

theorem ofDeclarator?_eq_some_iff_grammar : ofDeclarator? src t = some d ↔
    d.declarator = t ∧ t.IsFirst (Playing .name) d.name ∧ d.name.kind = .identifier ∧
      t.IsFirst (Playing .type) d.ascription ∧ t.IsFirst (Playing .value) d.value ∧
      ∃ type m, d.ascription.IsFirst Counts type ∧ Leads type m ∧
        ComponentType src m d.typeAlias d.props := by
  simp only [ofDeclarator?_eq_some_iff_fields, field?_eq_some_iff, firstProper?_eq_some_iff,
    leading?_eq_some_iff_leads, componentType?_eq_some_iff]

theorem decidedBy_of_field? {name ascription value : Tree} (hn : t.field? .name = some name)
    (hnk : name.kind = .identifier) (ha : t.field? .type = some ascription)
    (ht : ascription.firstProper? = some type) (hm : leading? type = some m)
    (hv : t.field? .value = some value) : DecidedBy t m where
  name := ⟨name, field?_eq_some_iff.1 hn, hnk⟩
  type := ⟨ascription, type, field?_eq_some_iff.1 ha, firstProper?_eq_some_iff.1 ht,
    leading?_eq_some_iff_leads.1 hm⟩
  value := ⟨value, field?_eq_some_iff.1 hv⟩

/-- The alias and the props of the component that a node declares. -/
def aliasAndProps? (src : Text) (t : Tree) : Option (Alias × Option Tree) :=
  (ofDeclarator? src t).map fun d => (d.typeAlias, d.props)

/-- Alias and props are read off the type that decides. -/
theorem aliasAndProps?_of_decidedBy (h : DecidedBy t m) :
    aliasAndProps? src t = componentType? src m := by
  obtain ⟨name, hn, hnk⟩ := h.name
  obtain ⟨ascription, type, hasc, htype, hleads⟩ := h.type
  obtain ⟨value, hv⟩ := h.value
  simp only [aliasAndProps?, ofDeclarator?, field?_eq_some_iff.2 hn, field?_eq_some_iff.2 hasc,
    field?_eq_some_iff.2 hv, firstProper?_eq_some_iff.2 htype, leading?_eq_some_iff_leads.2 hleads,
    hnk, guard, Option.bind_eq_bind, Option.bind_some, if_pos]
  cases componentType? src m <;> rfl

/-! ### Types that read the same -/

/-- Related nodes of two sources look the same to the grammar: kind and text are the same, and related
children play the same parts. -/
structure Faithful (src src' : Text) (R : Tree → Tree → Prop) : Prop where
  kind {t t' : Tree} : R t t' → t'.kind = t.kind
  text {t t' : Tree} : R t t' → t'.text src' = t.text src
  field? {t t' : Tree} : R t t' → ∀ f, Option.Rel R (t.field? f) (t'.field? f)
  firstProper? {t t' : Tree} : R t t' → Option.Rel R t.firstProper? t'.firstProper?

/-- The same alias and related props. -/
def SameReading (R : Tree → Tree → Prop) (x x' : Alias × Option Tree) : Prop :=
  x'.1 = x.1 ∧ Option.Rel R x.2 x'.2

section Faithful

variable {R : Tree → Tree → Prop}

theorem Faithful.typeAlias?_eq (hR : Faithful src src' R) (h : R t t') :
    typeAlias? src' t' = typeAlias? src t := by
  unfold typeAlias?
  rw [hR.kind h]
  split
  · rw [hR.text h]
  · have hq := hR.field? h .module
    have hn := hR.field? h .name
    generalize t.field? .module = q, t'.field? .module = q' at hq
    generalize t.field? .name = n, t'.field? .name = n' at hn
    cases hq with
    | none => rfl
    | some hq =>
      cases hn with
      | none => simp
      | some hn => simp [hR.kind hq, hR.text hn]
  · rfl

theorem Faithful.rel_argument? (hR : Faithful src src' R) (h : R t t') :
    Option.Rel R (argument? t) (argument? t') := by
  refine rel_bind (hR.field? h .typeArguments) fun as as' has => ?_
  refine rel_bind (hR.firstProper? has) fun p p' hp => ?_
  rw [hR.kind hp]
  cases p.kind.isPropsShape with
  | true => exact .some hp
  | false => exact .none

/-- Related types are component types with the same alias and related props, or none of them is one. -/
theorem Faithful.rel_componentType? (hR : Faithful src src' R) (h : R t t') :
    Option.Rel (SameReading R) (componentType? src t) (componentType? src' t') := by
  unfold componentType?
  rw [hR.kind h]
  split
  · refine rel_bind (hR.field? h .name) fun n n' hn => ?_
    rw [hR.typeAlias?_eq hn]
    refine rel_bind (rel_self (fun _ => rfl) (typeAlias? src n)) fun a a' ha => ?_
    refine rel_bind (hR.rel_argument? h) fun p p' hp => ?_
    exact .some ⟨ha.symm, .some hp⟩
  · rw [hR.typeAlias?_eq h]
    refine rel_bind (rel_self (fun _ => rfl) (typeAlias? src t)) fun a a' ha => ?_
    exact .some ⟨ha.symm, .none⟩

end Faithful

/-- The second tree is the first one written elsewhere: node by node, kind, field and text are the
same. -/
inductive Twin (src src' : Text) : Tree → Tree → Prop
  | node {l l' : Label} {cs cs' : List Tree} (kind : l'.kind = l.kind) (field : l'.field = l.field)
      (named : l'.named = l.named)
      (text : (Tree.node l' cs').text src' = (Tree.node l cs).text src)
      (children : List.Forall₂ (Twin src src') cs cs') : Twin src src' (.node l cs) (.node l' cs')

theorem faithful_twin : Faithful src src' (Twin src src') where
  kind := by
    rintro t t' ⟨kind, -, -, -, -⟩
    exact kind
  text := by
    rintro t t' ⟨-, -, -, text, -⟩
    exact text
  field? := by
    rintro t t' ⟨-, -, -, -, children⟩ f
    apply rel_find?_of_forall₂ _ children
    rintro c c' ⟨-, field, -, -, -⟩
    rw [label_node, label_node, field]
  firstProper? := by
    rintro t t' ⟨-, -, -, -, children⟩
    apply rel_find?_of_forall₂ _ children
    rintro c c' ⟨kind, -, named, -, -⟩
    simp only [Tree.isProper, label_node, kind_node, kind, named]

/-- **Declarators are matched by the alias grammar, and only the leftmost member counts.**  A node
declares a component exactly if its name is an identifier, it has a type and a value, and the type that
decides is an alias, alone or applied to props of a known shape.  Two such nodes with the same deciding
type have the same alias and the same props, whatever else there is in them.  If the deciding type of one
is that of the other written elsewhere, the alias is the same and so are the props, each at its place. -/
theorem ofDeclarator?_alias_grammar (src : Text) (t : Tree) :
    (∀ d, ofDeclarator? src t = some d ↔
      d.declarator = t ∧ t.IsFirst (Playing .name) d.name ∧ d.name.kind = .identifier ∧
        t.IsFirst (Playing .type) d.ascription ∧ t.IsFirst (Playing .value) d.value ∧
        ∃ type m, d.ascription.IsFirst Counts type ∧ Leads type m ∧
          ComponentType src m d.typeAlias d.props) ∧
    (∀ t' m, DecidedBy t m → DecidedBy t' m → aliasAndProps? src t = aliasAndProps? src t') ∧
    ∀ src' t' m m', DecidedBy t m → DecidedBy t' m' → Twin src src' m m' →
      Option.Rel (SameReading (Twin src src')) (aliasAndProps? src t) (aliasAndProps? src' t') := by
  refine ⟨fun d => ofDeclarator?_eq_some_iff_grammar, ?_, ?_⟩
  · intro t' m h h'
    rw [aliasAndProps?_of_decidedBy h, aliasAndProps?_of_decidedBy h']
  · intro src' t' m m' h h' htwin
    rw [aliasAndProps?_of_decidedBy h, aliasAndProps?_of_decidedBy h']
    exact faithful_twin.rel_componentType? htwin

open Concrete in
/-- The declarator `X: FC<P> = v`. -/
def plainDeclarator : Concrete :=
  Concrete.declarator "X" (application "FC" (leaf .typeIdentifier none "P"))
    (leaf .identifier (some .value) "v")

open Concrete in
/-- The declarator `X: FC<P>&Q&R = v`, with something in front of the type. -/
def crowdedDeclarator (front : List Concrete) : Concrete :=
  branch .variableDeclarator none [leaf .identifier (some .name) "X",
    branch (.other "type_annotation") (some .type) ([token ":", space] ++ front ++
      [branch .intersectionType none [branch .intersectionType none
          [application "FC" (leaf .typeIdentifier none "P"), token "&", leaf .typeIdentifier none "Q"],
        token "&", leaf .typeIdentifier none "R"]]),
    space, token "=", space, leaf .identifier (some .value) "v"]

/-- `crowdedDeclarator` with a comment in front of the type. -/
def commentedDeclarator : Concrete :=
  crowdedDeclarator [.leaf .comment none "/*c*/"]

/-- Further members change nothing, and behind a comment the same alias and props are read, five bytes
later. -/
theorem crowdedDeclarator_same_alias :
    ∃ m m', DecidedBy plainDeclarator.tree m ∧ DecidedBy (crowdedDeclarator []).tree m ∧
      aliasAndProps? plainDeclarator.text plainDeclarator.tree =
        aliasAndProps? plainDeclarator.text (crowdedDeclarator []).tree ∧
      DecidedBy commentedDeclarator.tree m' ∧ m'.start = m.start + 5 ∧
      Twin plainDeclarator.text commentedDeclarator.text m m' ∧
      Option.Rel (SameReading (Twin plainDeclarator.text commentedDeclarator.text))
        (aliasAndProps? plainDeclarator.text plainDeclarator.tree)
        (aliasAndProps? commentedDeclarator.text commentedDeclarator.tree) := by
  obtain ⟨-, hsame, htwin⟩ := ofDeclarator?_alias_grammar plainDeclarator.text plainDeclarator.tree
  obtain ⟨m, m', hplain, hcrowded, hcommented, hstart, htwins⟩ :
      ∃ m m', DecidedBy plainDeclarator.tree m ∧ DecidedBy (crowdedDeclarator []).tree m ∧
        DecidedBy commentedDeclarator.tree m' ∧ m'.start = m.start + 5 ∧
        Twin plainDeclarator.text commentedDeclarator.text m m' := by
    refine ⟨_, _, decidedBy_of_field? rfl rfl rfl rfl rfl rfl,
      decidedBy_of_field? rfl rfl rfl rfl rfl rfl,
      decidedBy_of_field? rfl rfl rfl rfl rfl rfl, rfl, ?_⟩
    repeat' constructor
  exact ⟨m, m', hplain, hcrowded, hsame _ m hplain hcrowded, hcommented, hstart, htwins,
    htwin _ _ m m' hplain hcommented htwins⟩

end Declaration

end PlainComponents
