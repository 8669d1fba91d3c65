import PlainComponents.Tree.Basic

/-!
# Outlines

The outline of a tree is the list of its labels in reading order, each with the number of its
children.  Parsers hand trees over in this form.  `Tree.ofOutline?` reads an outline, and
`ofOutline?_outline` says that nothing is lost.
-/

namespace PlainComponents

namespace Tree

mutual

/-- The labels of a tree in reading order, with the numbers of children. -/
def outline : Tree → List (Label × Nat)
  | node l cs => (l, cs.length) :: outlineAll cs

/-- The outlines of a list of trees, one after the other. -/
def outlineAll : List Tree → List (Label × Nat)
  | [] => []
  | c :: cs => c.outline ++ outlineAll cs

end

/-- The trees that an outline describes, one after the other.  Children that are missing at the end
are left out. -/
def forest : List (Label × Nat) → List Tree
  | [] => []
  | (l, arity) :: rest =>
    let trees := forest rest
    node l (trees.take arity) :: trees.drop arity

/-- The first tree that an outline describes. -/
def ofOutline? (nodes : List (Label × Nat)) : Option Tree :=
  (forest nodes).head?

mutual

theorem forest_outline_append (t : Tree) (rest : List (Label × Nat)) :
    forest (t.outline ++ rest) = t :: forest rest := by
  match t with
  | node l cs =>
    simp [outline, forest, forest_outlineAll_append cs rest]

theorem forest_outlineAll_append (cs : List Tree) (rest : List (Label × Nat)) :
    forest (outlineAll cs ++ rest) = cs ++ forest rest := by
  match cs with
  | [] => rfl
  | c :: cs =>
    rw [outlineAll, List.append_assoc, forest_outline_append c, forest_outlineAll_append cs,
      List.cons_append]

end

/-- A tree can be read back from its outline. -/
theorem ofOutline?_outline (t : Tree) : ofOutline? t.outline = some t := by
  have h := forest_outline_append t []
  rw [List.append_nil] at h
  simp [ofOutline?, h]

end Tree

end PlainComponents
