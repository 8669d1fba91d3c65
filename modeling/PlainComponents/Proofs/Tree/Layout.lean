import PlainComponents.Proofs.Tree.Concrete

/-!
# Trees laid out in a text

Laying out concrete trees gives syntax trees whose spans count from some offset on.  What such a syntax
tree says about a text depends on the text having the right characters at that offset.  `Placed` states
both together: some characters of `out` are the text of the trees, and the syntax trees are laid out
from there.

A placed tree may be taken apart: `Placed.append` at a cut between neighbours, `Placed.node` at a node,
whose span then holds the text of its parts.
-/

namespace PlainComponents

/-- The same label, up to the span and the flags of a faulty node. -/
structure Label.Alike (l m : Label) : Prop where
  kind : m.kind = l.kind
  field : m.field = l.field
  named : m.named = l.named
  hasError : m.hasError = l.hasError

namespace Concrete

variable {out : Text} {ps qs : List Concrete} {us : List Tree}

theorem treesAll_append (pos : Nat) (ps qs : List Concrete) :
    treesAll pos (ps ++ qs) = treesAll pos ps ++ treesAll (pos + (textAll ps).byteLength) qs := by
  induction ps generalizing pos with
  | nil => simp [treesAll]
  | cons p ps ih =>
    rw [List.cons_append, treesAll, treesAll, ih, textAll_cons, Text.byteLength_append,
      List.append_assoc, Nat.add_assoc]

/-- The trees are laid out where their text stands in `out`. -/
def Placed (out : Text) (ps : List Concrete) (us : List Tree) : Prop :=
  ∃ before after, out = before ++ textAll ps ++ after ∧ us = treesAll before.byteLength ps

theorem placed_self (ps : List Concrete) : Placed (textAll ps) ps (treesAll 0 ps) :=
  ⟨[], [], by simp, rfl⟩

theorem Placed.nil (h : Placed out [] us) : us = [] := by
  obtain ⟨before, after, -, rfl⟩ := h
  rfl

theorem Placed.append (h : Placed out (ps ++ qs) us) :
    ∃ vs ws, us = vs ++ ws ∧ Placed out ps vs ∧ Placed out qs ws := by
  obtain ⟨before, after, hout, rfl⟩ := h
  rw [textAll_append] at hout
  refine ⟨_, _, treesAll_append _ _ _, ⟨before, textAll qs ++ after, ?_, rfl⟩,
    ⟨before ++ textAll ps, after, ?_, ?_⟩⟩
  · simpa using hout
  · simpa using hout
  · rw [Text.byteLength_append]

theorem Placed.cons {p : Concrete} (h : Placed out (p :: ps) us) :
    ∃ vs ws, us = vs ++ ws ∧ Placed out [p] vs ∧ Placed out ps ws :=
  Placed.append (show Placed out ([p] ++ ps) us from h)

theorem Placed.gap {t : Text} (h : Placed out [.gap t] us) : us = [] := by
  obtain ⟨before, after, -, rfl⟩ := h
  rfl

theorem Placed.node {l : Label} (h : Placed out [.node l ps] us) :
    ∃ u, us = [u] ∧ l.Alike u.label ∧ u.text out = textAll ps ∧ Placed out ps u.children := by
  obtain ⟨before, after, hout, rfl⟩ := h
  have hout : out = before ++ textAll ps ++ after := by simpa using hout
  refine ⟨_, rfl, ⟨rfl, rfl, rfl, rfl⟩, ?_, before, after, hout, rfl⟩
  rw [hout]
  exact Text.slice_append_append _ _ _

end Concrete

end PlainComponents
