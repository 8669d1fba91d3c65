import PlainComponents.Proofs.Component.Lowered
import PlainComponents.Proofs.Conversion.Marks

/-!
# Props as a tree

The conversion writes the props of a component as text.  Here the same text comes with its nodes:
`propsNote` is an annotation whose type is a copy of the props, laid out as the text is.

* A reference, and a type with comments in it, is copied as it stands.
* An object type has copies of its members between braces, with separators.
* An intersection has copies of the members that it is flattened to, nested to the left as a parser nests
  them.

`annotates_propsNote` says that nothing was written differently.
-/

namespace PlainComponents

open Concrete

/-! ### Lists of trees -/

namespace Concrete

/-- The trees one after the other, with `between` between neighbours. -/
def joined (between : List Concrete) : List Concrete → List Concrete
  | [] => []
  | [p] => [p]
  | p :: q :: ps => p :: (between ++ joined between (q :: ps))

theorem textAll_joined (between ps : List Concrete) :
    textAll (joined between ps) = Text.joinWith (textAll between) (ps.map text) := by
  induction ps with
  | nil => rfl
  | cons p ps ih =>
    cases ps with
    | nil => simp [joined, Text.joinWith]
    | cons q ps => simpa [joined, Text.joinWith] using ih

/-- The intersection of a list of types. -/
def intersectAll : List Concrete → Concrete
  | [] => gap []
  | p :: ps => ps.foldl intersect p

theorem text_intersect (p q : Concrete) :
    (intersect p q).text = p.text ++ [' ', '&', ' '] ++ q.text := by
  simp [intersect, branch, token, space]

theorem joinWith_append_head (between u v : Text) (ts : List Text) :
    Text.joinWith between ((u ++ v) :: ts) = u ++ Text.joinWith between (v :: ts) := by
  cases ts <;> simp [Text.joinWith]

theorem text_intersectAll (ps : List Concrete) :
    (intersectAll ps).text = Text.joinWith [' ', '&', ' '] (ps.map text) := by
  cases ps with
  | nil => rfl
  | cons p ps =>
    -- the members so far count as one
    show (ps.foldl intersect p).text = _
    induction ps generalizing p with
    | nil => rfl
    | cons q ps ih =>
      rw [List.foldl_cons, ih, List.map_cons, text_intersect, joinWith_append_head]
      rfl

end Concrete

/-! ### Copies of props -/

def Separator.token : Separator → Concrete
  | comma => .token ","
  | semicolon => .token ";"

/-- The copy of an object type. -/
def objectCopy (src : Text) (t : Tree) : Concrete :=
  if t.hasComment then t.concrete src
  else
    let members := t.properChildren.map (Tree.concrete src)
    let pad := if Literal.isPadded src t then [space] else []
    .node t.label <| if members.isEmpty then [token "\x7b", token "\x7d"]
      else [token "\x7b"] ++ pad ++ joined [(Separator.ofTree t).token, space] members ++ pad ++
        [token "\x7d"]

/-- The copy of a member of an intersection. -/
def memberCopy (src : Text) (t : Tree) : Concrete :=
  if t.kind = .objectType then objectCopy src t else t.concrete src

/-- The copy of props. -/
def propsCopy (src : Text) (t : Tree) : Concrete :=
  match t.kind with
  | .objectType => objectCopy src t
  | .intersectionType =>
    if t.containsComment then t.concrete src
    else intersectAll (t.flatten.map (memberCopy src))
  | _ => t.concrete src

theorem propsCopy_object {src : Text} {t : Tree} (h : t.kind = .objectType) :
    propsCopy src t = objectCopy src t := by
  unfold propsCopy
  rw [h]

theorem propsCopy_intersection {src : Text} {t : Tree} (h : t.kind = .intersectionType) :
    propsCopy src t = if t.containsComment then t.concrete src
      else intersectAll (t.flatten.map (memberCopy src)) := by
  unfold propsCopy
  rw [h]

theorem propsCopy_reference {src : Text} {t : Tree} (h : t.kind.isTypeReference = true) :
    propsCopy src t = t.concrete src := by
  unfold propsCopy
  split
  next hk => rw [hk] at h; cases h
  next hk => rw [hk] at h; cases h
  next => rfl

/-- The annotation for props. -/
def propsNote (src : Text) (p : Tree) : Concrete :=
  annotation (propsCopy src p)

/-! ### Their texts -/

section Texts

variable {src : Text} {t : Tree}

theorem Separator.textAll_token (s : Separator) : textAll [s.token, space] = s.text := by
  cases s <;> rfl

theorem text_objectCopy {props : PropsType} (hs : t.WellSpaced) (hb : t.OnBoundaries src)
    (h : PropsType.ofObject src t = .ok props) : (objectCopy src t).text = props.render := by
  unfold objectCopy
  cases hc : t.hasComment with
  | true =>
    rw [PropsType.ofObject_of_comment hc] at h
    cases h
    rw [if_pos rfl, Tree.text_concrete hs hb, PropsType.render]
  | false =>
    rw [PropsType.ofObject_of_no_comment hc] at h
    obtain ⟨members, hm, rfl⟩ := map_eq_ok_iff.1 h
    have htexts : members.map Member.text =
        (t.properChildren.map (Tree.concrete src)).map text := by
      rw [List.map_map]
      refine map_eq_of_mapM_eq_ok (fun c hc m hcm => ?_) hm
      have hmem := Tree.child_mem_preorder (List.mem_filter.1 hc).1
      rw [Function.comp_apply, Tree.text_concrete (hs.of_mem hmem) (hb.of_mem hmem)]
      exact Member.text_of_ofTree hcm
    have hempty : members.isEmpty = (t.properChildren.map (Tree.concrete src)).isEmpty := by
      have := congrArg List.isEmpty htexts
      simpa using this
    simp only [Bool.false_eq_true, if_false, PropsType.render, Literal.render, ← hempty]
    by_cases he : members.isEmpty
    · simp [he, token]
    · simp only [he, Bool.false_eq_true, if_false, text_node, textAll_append, textAll_joined,
        Separator.textAll_token, ← htexts]
      by_cases hpad : Literal.isPadded src t <;> simp [hpad, token, space]

theorem text_memberCopy {props : PropsType} (hs : t.WellSpaced) (hb : t.OnBoundaries src)
    (h : PropsType.ofMember src t = .ok props) : (memberCopy src t).text = props.render := by
  unfold PropsType.ofMember at h
  unfold memberCopy
  split at h
  next hk =>
    rw [if_pos hk]
    exact text_objectCopy hs hb h
  next hk =>
    cases h
    rw [if_neg hk, Tree.text_concrete hs hb, PropsType.render]

theorem text_propsCopy {props : PropsType} (hs : t.WellSpaced) (hb : t.OnBoundaries src)
    (h : PropsType.ofTree src t = .ok props) : (propsCopy src t).text = props.render := by
  rcases t.kind.props_cases with hk | hk | hk | hk
  · rw [PropsType.ofTree_of_object hk] at h
    rw [propsCopy_object hk]
    exact text_objectCopy hs hb h
  · rw [propsCopy_intersection hk]
    cases hc : t.containsComment with
    | true =>
      rw [PropsType.ofTree_of_comment hk hc] at h
      cases h
      rw [if_pos rfl, Tree.text_concrete hs hb, PropsType.render]
    | false =>
      rw [PropsType.ofTree_of_no_comment hk hc] at h
      obtain ⟨members, hm, rfl⟩ := map_eq_ok_iff.1 h
      have htexts : members.map PropsType.render = (t.flatten.map (memberCopy src)).map text := by
        rw [List.map_map]
        refine map_eq_of_mapM_eq_ok (fun c hc m hcm => ?_) hm
        have hmem := Tree.mem_preorder_of_mem_flatten hc
        exact (text_memberCopy (hs.of_mem hmem) (hb.of_mem hmem) hcm).symm
      rw [if_neg (by simp), text_intersectAll, PropsType.render, PropsType.renderAll_eq_map, htexts]
  · rw [PropsType.ofTree_of_reference hk] at h
    cases h
    rw [propsCopy_reference hk, Tree.text_concrete hs hb, PropsType.render]
  · rw [PropsType.ofTree_of_not_propsShape hk] at h
    cases h

/-- The annotation with its nodes reads as the one that is written. -/
theorem annotates_propsNote (hs : t.WellSpaced) (hb : t.OnBoundaries src) :
    Annotates src (propsNote src) t := by
  intro p hp props h
  have hcopy := text_propsCopy (hs.of_mem hp) (hb.of_mem hp) h
  simp [propsNote, annotation, branch, token, space, hcopy, Parameter.ascription]

end Texts

end PlainComponents
