import PlainComponents.Component.Declaration

/-!
# Reading order

Two facts about the nodes of a tree are behind every statement about a whole source.

* The walk of a cursor is the reading order of the tree (`Cursor.walk_top`), so the component
  declarations of a tree are those of its subtrees in that order (`declarations_eq_filterMap`).
* What holds of the children of a node and of the node itself holds everywhere: `Tree.inductionOn`
  is the induction over a tree with one hypothesis for each child.

Two more are about what lies below a node.  An intersection has the members that its children contribute
(`Tree.flatten_eq_flatMap`), and a node contains a comment exactly if it reaches one through named nodes
(`Tree.containsComment_iff`).
-/

namespace PlainComponents

namespace Tree

/-- Induction over a tree: a node may use the statement for each of its children. -/
@[elab_as_elim]
theorem inductionOn {motive : Tree → Prop} (t : Tree)
    (node : ∀ l cs, (∀ c ∈ cs, motive c) → motive (.node l cs)) : motive t :=
  match t with
  | .node l cs => node l cs fun c _ => inductionOn c node

@[simp] theorem label_node (l : Label) (cs : List Tree) : (node l cs).label = l := rfl

@[simp] theorem children_node (l : Label) (cs : List Tree) : (node l cs).children = cs := rfl

@[simp] theorem kind_node (l : Label) (cs : List Tree) : (node l cs).kind = l.kind := rfl

@[simp] theorem start_node (l : Label) (cs : List Tree) : (node l cs).start = l.start := rfl

@[simp] theorem stop_node (l : Label) (cs : List Tree) : (node l cs).stop = l.stop := rfl

/-! ### Subtrees -/

theorem preorderAll_eq_flatMap (cs : List Tree) : preorderAll cs = cs.flatMap preorder := by
  induction cs with
  | nil => rfl
  | cons c cs ih => rw [preorderAll, ih, List.flatMap_cons]

theorem preorder_node (l : Label) (cs : List Tree) :
    (node l cs).preorder = node l cs :: cs.flatMap preorder := by
  rw [preorder, preorderAll_eq_flatMap]

theorem mem_preorder_node {n : Tree} {l : Label} {cs : List Tree} :
    n ∈ (node l cs).preorder ↔ n = node l cs ∨ ∃ c ∈ cs, n ∈ c.preorder := by
  rw [preorder_node, List.mem_cons, List.mem_flatMap]

theorem mem_preorder_self (t : Tree) : t ∈ t.preorder := by
  obtain ⟨l, cs⟩ := t
  exact mem_preorder_node.2 (.inl rfl)

theorem mem_preorder_of_mem_children {n c t : Tree} (hc : c ∈ t.children) (hn : n ∈ c.preorder) :
    n ∈ t.preorder := by
  obtain ⟨l, cs⟩ := t
  exact mem_preorder_node.2 (.inr ⟨c, hc, hn⟩)

theorem child_mem_preorder {c t : Tree} (hc : c ∈ t.children) : c ∈ t.preorder :=
  mem_preorder_of_mem_children hc c.mem_preorder_self

theorem mem_preorder_trans {n m t : Tree} (hn : n ∈ m.preorder) (hm : m ∈ t.preorder) :
    n ∈ t.preorder := by
  induction t using inductionOn with
  | node l cs ih =>
    rcases mem_preorder_node.1 hm with rfl | ⟨c, hc, hmc⟩
    · exact hn
    · exact mem_preorder_node.2 (.inr ⟨c, hc, ih c hc hmc⟩)

/-- Induction over a tree where a node may use the statement for everything below it. -/
@[elab_as_elim]
theorem strongInductionOn {motive : Tree → Prop} (t : Tree)
    (node : ∀ l cs, (∀ c ∈ cs, ∀ n ∈ c.preorder, motive n) → motive (.node l cs)) : motive t := by
  have h : ∀ n ∈ t.preorder, motive n := by
    induction t using inductionOn with
    | node l cs ih =>
      intro n hn
      rcases mem_preorder_node.1 hn with rfl | ⟨c, hc, hnc⟩
      · exact node l cs ih
      · exact ih c hc n hnc
  exact h t t.mem_preorder_self

/-! ### Children with a part to play -/

theorem mem_of_field? {t c : Tree} {f : Field} (h : t.field? f = some c) : c ∈ t.children :=
  List.mem_of_find?_eq_some h

theorem field_of_field? {t c : Tree} {f : Field} (h : t.field? f = some c) :
    c.label.field = some f := by
  simpa using List.find?_some h

theorem mem_of_firstProper? {t c : Tree} (h : t.firstProper? = some c) : c ∈ t.children :=
  List.mem_of_find?_eq_some h

theorem mem_of_token? {t c : Tree} {k : Kind} (h : t.token? k = some c) : c ∈ t.children :=
  List.mem_of_find?_eq_some h

theorem isProper_of_firstProper? {t c : Tree} (h : t.firstProper? = some c) : c.isProper = true :=
  List.find?_some h

/-- Among the children of a node, `c` is the first of which `P` holds. -/
def IsFirst (P : Tree → Prop) (t c : Tree) : Prop :=
  P c ∧ ∃ before after, t.children = before ++ c :: after ∧ ∀ b ∈ before, ¬ P b

/-- The node plays the part `f` in its parent. -/
def Playing (f : Field) (t : Tree) : Prop :=
  t.label.field = some f

/-- The node is named and no comment. -/
def Counts (t : Tree) : Prop :=
  t.label.named = true ∧ t.kind ≠ .comment ∧ t.kind ≠ .htmlComment

theorem find?_children_eq_some_iff {p : Tree → Bool} {P : Tree → Prop} {t c : Tree}
    (hp : ∀ c, p c = true ↔ P c) : t.children.find? p = some c ↔ t.IsFirst P c := by
  rw [List.find?_eq_some_iff_append, hp]
  simp only [Bool.not_eq_true', ← Bool.not_eq_true, hp, IsFirst]

theorem isProper_iff {t : Tree} : t.isProper = true ↔ t.Counts := by
  have hcomment : t.kind.isComment = false ↔ t.kind ≠ .comment ∧ t.kind ≠ .htmlComment := by
    cases t.kind <;> simp [Kind.isComment]
  rw [isProper, Counts, Bool.and_eq_true, Bool.not_eq_true', hcomment]

theorem field?_eq_some_iff {t c : Tree} {f : Field} :
    t.field? f = some c ↔ t.IsFirst (Playing f) c :=
  find?_children_eq_some_iff fun _ => decide_eq_true_iff

theorem firstProper?_eq_some_iff {t c : Tree} :
    t.firstProper? = some c ↔ t.IsFirst Counts c :=
  find?_children_eq_some_iff fun _ => isProper_iff

/-! ### Members of an intersection -/

/-- The members of a type: those of an intersection, or the type itself. -/
def operands (t : Tree) : List Tree :=
  if t.kind = .intersectionType then t.flatten else [t]

/-- A node has the members that its children contribute, one child after the other. -/
theorem flatten_eq_flatMap (t : Tree) :
    t.flatten = t.children.flatMap fun c => if c.isProper then c.operands else [] := by
  obtain ⟨l, cs⟩ := t
  rw [flatten, children_node]
  induction cs with
  | nil => rfl
  | cons c cs ih =>
    rw [flattenAll, List.flatMap_cons, ih, operands]
    split
    · split
      · rfl
      · rfl
    · rfl

theorem mem_preorder_of_mem_flatten {m t : Tree} (h : m ∈ t.flatten) : m ∈ t.preorder := by
  induction t using inductionOn with
  | node l cs ih =>
    rw [flatten_eq_flatMap, List.mem_flatMap] at h
    obtain ⟨c, hc, hm⟩ := h
    refine mem_preorder_node.2 (.inr ⟨c, hc, ?_⟩)
    split at hm
    · rw [operands] at hm
      split at hm
      · exact ih c hc hm
      · rw [List.mem_singleton.1 hm]
        exact c.mem_preorder_self
    · cases hm

/-! ### Comments below a node -/

/-- The second node lies below the first, and the way down to it leads through named nodes. -/
inductive Reaches : Tree → Tree → Prop
  | child {t c : Tree} (hc : c ∈ t.children) (hnamed : c.label.named = true) : Reaches t c
  | step {t c m : Tree} (hc : c ∈ t.children) (hnamed : c.label.named = true) (h : Reaches c m) :
      Reaches t m

theorem Reaches.mem_preorder {t m : Tree} (h : Reaches t m) : m ∈ t.preorder := by
  induction h with
  | child hc _ => exact child_mem_preorder hc
  | step hc _ _ ih => exact mem_preorder_of_mem_children hc ih

theorem containsComment_eq (t : Tree) : t.containsComment =
    t.children.any fun c => c.label.named && (c.kind.isComment || c.containsComment) := by
  obtain ⟨l, cs⟩ := t
  rw [containsComment, children_node]
  induction cs with
  | nil => rfl
  | cons c cs ih => rw [anyContainsComment, ih, List.any_cons]

theorem containsComment_iff {t : Tree} :
    t.containsComment = true ↔ ∃ m, Reaches t m ∧ m.kind.isComment = true := by
  constructor
  · induction t using inductionOn with
    | node l cs ih =>
      intro h
      rw [containsComment_eq] at h
      simp only [List.any_eq_true, Bool.and_eq_true, Bool.or_eq_true] at h
      obtain ⟨c, hc, hnamed, hcomment | hbelow⟩ := h
      · exact ⟨c, .child hc hnamed, hcomment⟩
      · obtain ⟨m, hm, hcomment⟩ := ih c hc hbelow
        exact ⟨m, .step hc hnamed hm, hcomment⟩
  · rintro ⟨m, h, hcomment⟩
    induction h with
    | child hc hnamed =>
      rw [containsComment_eq, List.any_eq_true]
      exact ⟨_, hc, by simp [hnamed, hcomment]⟩
    | step hc hnamed _ ih =>
      rw [containsComment_eq, List.any_eq_true]
      exact ⟨_, hc, by simp [hnamed, ih hcomment]⟩

end Tree

/-! ### The walk of a cursor -/

namespace Cursor

/-- What the walk still has to visit once it leaves the focus. -/
def upcoming : List Crumb → List Tree
  | [] => []
  | c :: trail => c.after.flatMap Tree.preorder ++ upcoming trail

theorem skip?_eq_none {t : Tree} {trail : List Crumb} (h : skip? t trail = none) :
    upcoming trail = [] := by
  induction trail generalizing t with
  | nil => rfl
  | cons c trail ih =>
    obtain ⟨l, before, after⟩ := c
    cases after with
    | nil => exact ih h
    | cons a after => simp [skip?] at h

theorem skip?_eq_some {t : Tree} {trail : List Crumb} {d : Cursor} (h : skip? t trail = some d) :
    upcoming trail = d.focus.preorder ++ upcoming d.trail := by
  induction trail generalizing t with
  | nil => simp [skip?] at h
  | cons c trail ih =>
    obtain ⟨l, before, after⟩ := c
    cases after with
    | nil => exact ih h
    | cons a after =>
      obtain rfl : _ = d := Option.some.inj h
      simp [upcoming]

/-- The walk visits the focus in reading order and then what lies to the right of the way up. -/
theorem walk_eq (c : Cursor) : c.walk = c.focus.preorder ++ upcoming c.trail := by
  induction hm : c.remaining using Nat.strongRecOn generalizing c with
  | ind m ih =>
    subst hm
    obtain ⟨⟨l, cs⟩, trail⟩ := c
    rw [walk]
    cases cs with
    | nil =>
      have hnext : next? ⟨.node l [], trail⟩ = skip? (.node l []) trail := rfl
      split
      next h =>
        rw [hnext] at h
        rw [skip?_eq_none h]
        rfl
      next d h =>
        rw [ih _ (remaining_next? h) d rfl, ← skip?_eq_some (hnext ▸ h)]
        rfl
    | cons a cs =>
      have hnext : next? ⟨.node l (a :: cs), trail⟩ = some ⟨a, ⟨l, [], cs⟩ :: trail⟩ := rfl
      split
      next h => cases hnext.symm.trans h
      next d h =>
        obtain rfl := Option.some.inj (hnext.symm.trans h)
        rw [ih _ (remaining_next? h) _ rfl, Tree.preorder_node]
        simp [upcoming]

/-- From the top of a tree, the walk is the reading order. -/
theorem walk_top (t : Tree) : (top t).walk = t.preorder := by
  rw [walk_eq]
  simp [top, upcoming]

end Cursor

theorem declarations_eq_filterMap (src : Text) (t : Tree) :
    declarations src t = t.preorder.filterMap (declaration? src) := by
  rw [declarations, Cursor.walk_top]

theorem mem_declarations {src : Text} {t : Tree} {d : Declaration} :
    d ∈ declarations src t ↔ ∃ n ∈ t.preorder, declaration? src n = some d := by
  rw [declarations_eq_filterMap, List.mem_filterMap]

end PlainComponents
