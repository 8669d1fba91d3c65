import PlainComponents.Component.PropsType
import PlainComponents.Proofs.Traversal

/-!
# How props types are taken out of the source

The equations of `PropsType.ofTree`, one for each shape of type that it tells apart, and what the
members of an object type keep of their nodes.  Statements about props are proved from these, shape by
shape (`Kind.props_cases`).
-/

namespace PlainComponents

/-- The shapes of type that are told apart. -/
theorem Kind.props_cases (k : Kind) : k = .objectType ∨ k = .intersectionType ∨
    k.isTypeReference = true ∨ k.isPropsShape = false := by
  cases k <;> simp [isTypeReference, isPropsShape]

theorem Member.text_of_ofTree {src : Text} {t : Tree} {m : Member} (h : Member.ofTree src t = .ok m) :
    m.text = t.text src := by
  unfold Member.ofTree at h
  split at h <;> cases h
  rfl

namespace PropsType

variable {src : Text} {t : Tree}

theorem renderAll_eq_map (ps : List PropsType) : renderAll ps = ps.map render := by
  induction ps with
  | nil => rfl
  | cons p ps ih => rw [renderAll, ih, List.map_cons]

/-! ### Object types -/

theorem ofObject_of_comment (h : t.hasComment = true) :
    ofObject src t = .ok (reference (t.text src)) := by
  rw [ofObject, if_pos h]

theorem ofObject_of_no_comment (h : t.hasComment = false) :
    ofObject src t = (fun members => literal ⟨members, Separator.ofTree t, Literal.isPadded src t⟩) <$>
      t.properChildren.mapM (Member.ofTree src) := by
  rw [ofObject, h, if_neg (by simp)]
  cases t.properChildren.mapM (Member.ofTree src) <;> rfl

/-! ### Any type -/

theorem ofTree_of_object (h : t.kind = .objectType) : ofTree src t = ofObject src t := by
  rw [ofTree, h]

theorem ofTree_of_comment (h : t.kind = .intersectionType) (hc : t.containsComment = true) :
    ofTree src t = .ok (reference (t.text src)) := by
  rw [ofTree, h]
  exact if_pos hc

theorem ofTree_of_no_comment (h : t.kind = .intersectionType) (hc : t.containsComment = false) :
    ofTree src t = intersection <$> t.flatten.mapM (ofMember src) := by
  rw [ofTree, h]
  simp only [hc, Bool.false_eq_true, if_false]
  cases t.flatten.mapM (ofMember src) <;> rfl

theorem ofTree_of_reference (h : t.kind.isTypeReference = true) :
    ofTree src t = .ok (reference (t.text src)) := by
  unfold ofTree
  split
  next hk => rw [hk] at h; cases h
  next hk => rw [hk] at h; cases h
  next => exact if_pos h

theorem ofTree_of_not_propsShape (h : t.kind.isPropsShape = false) :
    ofTree src t = .error (.unsupported .propsType t.kind t.start) := by
  unfold ofTree
  split
  next hk => rw [hk] at h; cases h
  next hk => rw [hk] at h; cases h
  next hobject hinter =>
    have hreference : t.kind.isTypeReference = false := by
      cases hk : t.kind <;> simp_all [Kind.isPropsShape]
    rw [if_neg (by simp [hreference])]

end PropsType

end PlainComponents
