import PlainComponents.Proofs.Component.Lowered
import PlainComponents.Proofs.Tree.Address
import PlainComponents.Proofs.Tree.Concrete

/-!
# Intersections, however they are nested

A parser nests the members of an intersection to the left, with or without a leading `&`; other trees
may nest them otherwise.  This module says which nodes the members are without going through the tree in
some order, and that the nesting leaves no trace in a props type.

* `Tree.Operand` leads from a type through intersections to a type that is none, and `Tree.IsMember`
  starts it at the children of a node.
* `Tree.flatten` has the members of a node, each once and in reading order
  (`Tree.inReadingOrder_flatten`).
* `PropsType.Agree` relates members of two intersections, in two texts.  If all of them agree, the props
  types are the same or there are none (`PropsType.toOption_ofTree_eq`).
-/

namespace PlainComponents

theorem Text.joinWith_eq_intercalate (between : Text) (ts : List Text) :
    joinWith between ts = between.intercalate ts := by
  induction ts with
  | nil => rfl
  | cons t ts ih =>
    cases ts with
    | nil => simp [joinWith, List.intercalate]
    | cons u ts => rw [joinWith, ih, List.intercalate_cons_cons]

namespace Tree

variable {t m : Tree} {p : Address}

/-! ### Members and where they stand -/

/-- From the type `t` the address leads through intersections to `m`, which is none. -/
inductive Operand : Tree → Address → Tree → Prop
  | self {t : Tree} (hk : t.kind ≠ .intersectionType) : Operand t [] t
  | member {t c m : Tree} {i : Nat} {p : Address} (hk : t.kind = .intersectionType)
      (hc : t.children[i]? = some c) (hcounts : c.Counts) (h : Operand c p m) : Operand t (i :: p) m

/-- The node `m` is reached from a child of `t` through intersections only. -/
def IsMember (t : Tree) (a : Address) (m : Tree) : Prop :=
  ∃ i p c, a = i :: p ∧ t.children[i]? = some c ∧ c.Counts ∧ Operand c p m

theorem operand_iff_of_ne (hk : t.kind ≠ .intersectionType) :
    Operand t p m ↔ p = [] ∧ m = t := by
  constructor
  · intro h
    cases h with
    | self _ => exact ⟨rfl, rfl⟩
    | member hk' _ _ _ => exact absurd hk' hk
  · rintro ⟨rfl, rfl⟩
    exact .self hk

theorem operand_iff_of_intersection (hk : t.kind = .intersectionType) :
    Operand t p m ↔ t.IsMember p m := by
  constructor
  · intro h
    cases h with
    | self hk' => exact absurd hk hk'
    | member _ hc hcounts h => exact ⟨_, _, _, rfl, hc, hcounts, h⟩
  · rintro ⟨i, q, c, rfl, hc, hcounts, h⟩
    exact .member hk hc hcounts h

theorem Operand.at?_eq (h : Operand t p m) : t.at? p = some m := by
  induction h with
  | self _ => rfl
  | member _ hc _ _ ih => exact at?_cons_eq_some_iff.2 ⟨_, hc, ih⟩

theorem IsMember.at?_eq (h : t.IsMember p m) : t.at? p = some m := by
  obtain ⟨i, q, c, rfl, hc, -, hoperand⟩ := h
  exact at?_cons_eq_some_iff.2 ⟨c, hc, hoperand.at?_eq⟩

theorem Operand.proper (h : Operand t p m) (hcounts : t.Counts) :
    m.Counts ∧ m.kind ≠ .intersectionType := by
  induction h with
  | self hk => exact ⟨hcounts, hk⟩
  | member _ _ hcounts' _ ih => exact ih hcounts'

/-- If flattening finds the members of a type, then `operands` is what its operands lead to. -/
theorem inReadingOrder_operands (h : InReadingOrder t.IsMember t.flatten) :
    InReadingOrder (Operand t) t.operands := by
  rw [operands]
  split
  next hk => exact h.congr fun p m => (operand_iff_of_intersection hk).symm
  next hk => exact (inReadingOrder_singleton t).congr fun p m => (operand_iff_of_ne hk).symm

/-- **Flattening finds the members of a node**, each once and in reading order. -/
theorem inReadingOrder_flatten (t : Tree) : InReadingOrder t.IsMember t.flatten := by
  induction t using inductionOn with
  | node l cs ih =>
    rw [flatten_eq_flatMap]
    have hchild : ∀ c ∈ cs, InReadingOrder (fun p m => c.Counts ∧ Operand c p m)
        (if c.isProper then c.operands else []) := by
      intro c hc
      split
      next hproper =>
        have hcounts : c.Counts := isProper_iff.1 hproper
        exact (inReadingOrder_operands (ih c hc)).congr fun p m => by simp [hcounts]
      next hproper =>
        rw [isProper_iff] at hproper
        exact inReadingOrder_nil fun p m hm => hproper hm.1
    exact InReadingOrder.children hchild

/-- An intersection that reaches no comment. -/
structure CleanIntersection (t : Tree) : Prop where
  kind : t.kind = .intersectionType
  clean : ∀ m, Reaches t m → m.kind.isComment = false

theorem cleanIntersection_iff :
    t.CleanIntersection ↔ t.kind = .intersectionType ∧ t.containsComment = false := by
  have hclean : t.containsComment = false ↔ ∀ m, Reaches t m → m.kind.isComment = false := by
    rw [← Bool.not_eq_true, containsComment_iff]
    simp only [not_exists, not_and, Bool.not_eq_true]
  rw [hclean]
  exact ⟨fun h => ⟨h.kind, h.clean⟩, fun h => ⟨h.1, h.2⟩⟩

end Tree

namespace PropsType

open PlainComponents.Tree

variable {src src' : Text} {t t' m m' : Tree} {props : PropsType}

/-! ### What members make of an intersection -/

/-- Two members of intersections, in two texts, that make no difference to a props type: they have the
same kind and text, and an object type is lowered to the same type, if to any.  Whatever is no object
type keeps its text. -/
structure Agree (src src' : Text) (m m' : Tree) : Prop where
  kind : m.kind = m'.kind
  text : m.text src = m'.text src'
  literal : m.kind = .objectType → (ofObject src m).toOption = (ofObject src' m').toOption

theorem Agree.toOption_ofMember (h : Agree src src' m m') :
    (ofMember src m).toOption = (ofMember src' m').toOption := by
  rw [ofMember, ofMember, ← h.kind, ← h.text]
  split
  next hk => exact h.literal hk
  next => rfl

/-- A clean intersection is lowered member by member. -/
theorem ofTree_of_clean (h : t.CleanIntersection) :
    ofTree src t = intersection <$> t.flatten.mapM (ofMember src) := by
  obtain ⟨hk, hcomment⟩ := cleanIntersection_iff.1 h
  exact ofTree_of_no_comment hk hcomment

theorem ofTree_eq_ok_iff_members (h : t.CleanIntersection) : ofTree src t = .ok props ↔
    ∃ parts, List.Forall₂ (fun m part => ofMember src m = .ok part) t.flatten parts ∧
      props = intersection parts := by
  rw [ofTree_of_clean h, map_eq_ok_iff]
  constructor
  · rintro ⟨parts, hparts, rfl⟩
    exact ⟨parts, forall₂_of_mapM_eq_ok hparts, rfl⟩
  · rintro ⟨parts, hparts, rfl⟩
    exact ⟨parts, mapM_eq_ok_of_forall₂ hparts, rfl⟩

theorem render_intersection (parts : List PropsType) :
    (intersection parts).render = [' ', '&', ' '].intercalate (parts.map render) := by
  rw [render, renderAll_eq_map, Text.joinWith_eq_intercalate]

/-- Intersections whose members agree are lowered to the same type, if to any. -/
theorem toOption_ofTree_eq (h : t.CleanIntersection) (h' : t'.CleanIntersection)
    (hmembers : List.Forall₂ (Agree src src') t.flatten t'.flatten) :
    (ofTree src t).toOption = (ofTree src' t').toOption := by
  have hall := hmembers.imp fun _ _ hagree => hagree.toOption_ofMember
  rw [ofTree_of_clean h, ofTree_of_clean h', toOption_map, toOption_map, toOption_mapM_eq hall]

/-- **Intersections are flattened completely, and their nesting does not matter.**  Flattening a node
gives the types that its children lead to through intersections, each once and in reading order; none
of them is a comment, a token or an intersection.  A clean intersection has a props type exactly if each
of its members can be lowered, and that type is written as the members are, with `&` between them.  Two
clean intersections whose members agree one by one have the same props type, or neither has one, however
each of them is nested and wherever it stands. -/
theorem nesting_irrelevant (t : Tree) :
    InReadingOrder t.IsMember t.flatten ∧
    (∀ p m, t.IsMember p m → t.at? p = some m ∧ m.Counts ∧ m.kind ≠ .intersectionType) ∧
    (∀ src, t.CleanIntersection → ∀ props, ofTree src t = .ok props ↔
      ∃ parts, List.Forall₂ (fun m part => ofMember src m = .ok part) t.flatten parts ∧
        props = intersection parts ∧ props.render = [' ', '&', ' '].intercalate (parts.map render)) ∧
    ∀ (t' : Tree) (src src' : Text), t.CleanIntersection → t'.CleanIntersection →
      List.Forall₂ (Agree src src') t.flatten t'.flatten →
        (ofTree src t).toOption = (ofTree src' t').toOption := by
  refine ⟨t.inReadingOrder_flatten, ?_, ?_, ?_⟩
  · intro p m hm
    refine ⟨hm.at?_eq, ?_⟩
    obtain ⟨i, q, c, -, -, hcounts, hoperand⟩ := hm
    exact hoperand.proper hcounts
  · intro src h props
    rw [ofTree_eq_ok_iff_members h]
    refine exists_congr fun parts => and_congr_right fun _ => ?_
    constructor
    · rintro rfl
      exact ⟨rfl, render_intersection parts⟩
    · exact And.left
  · intro t' src src' h h' hmembers
    exact toOption_ofTree_eq h h' hmembers

open Concrete in
/-- The object type `{ x: N }`. -/
def boxed : Concrete :=
  branch .objectType none [token "\x7b", space, branch .propertySignature none [gap "x: N".toList],
    space, token "\x7d"]

open Concrete in
/-- The type `A & B & { x: N }`, nested to the left. -/
def leftward : Concrete :=
  intersect (intersect (leaf .typeIdentifier none "A") (leaf .typeIdentifier none "B")) boxed

open Concrete in
/-- The type `& A & B & { x: N }`, with a leading sign and nested to the right. -/
def rightward : Concrete :=
  intersect (branch .intersectionType none [token "&", space, leaf .typeIdentifier none "A"])
    (intersect (leaf .typeIdentifier none "B") boxed)

/-- Nested in either way, the type has the same three members and is written in the same way. -/
theorem leftward_rightward_alike :
    leftward.tree.CleanIntersection ∧ rightward.tree.CleanIntersection ∧
    List.Forall₂ (Agree leftward.text rightward.text) leftward.tree.flatten
      rightward.tree.flatten ∧
    ∃ props, ofTree leftward.text leftward.tree = .ok props ∧
      (ofTree rightward.text rightward.tree).toOption = some props ∧
      props.render = "A & B & \x7b x: N \x7d".toList := by
  have hleft : leftward.tree.CleanIntersection := cleanIntersection_iff.2 ⟨rfl, by decide⟩
  have hright : rightward.tree.CleanIntersection := cleanIntersection_iff.2 ⟨rfl, by decide⟩
  have hmembers : List.Forall₂ (Agree leftward.text rightward.text) leftward.tree.flatten
      rightward.tree.flatten := by
    refine .cons ⟨rfl, by decide, ?_⟩ (.cons ⟨rfl, by decide, ?_⟩ (.cons ⟨rfl, by decide, ?_⟩ .nil))
    · exact fun h => absurd h (by decide)
    · exact fun h => absurd h (by decide)
    · exact fun _ => rfl
  obtain ⟨-, -, -, hsame⟩ := nesting_irrelevant leftward.tree
  obtain ⟨props, hprops, htext⟩ : ∃ props, ofTree leftward.text leftward.tree = .ok props ∧
      props.render = "A & B & \x7b x: N \x7d".toList := ⟨_, rfl, rfl⟩
  refine ⟨hleft, hright, hmembers, props, hprops, ?_, htext⟩
  rw [← hsame rightward.tree leftward.text rightward.text hleft hright hmembers, hprops]
  rfl

end PropsType

end PlainComponents
