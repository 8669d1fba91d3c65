import PlainComponents.Proofs.Tree.Preorder

/-!
# Trees without their comments

`Tree.erase` takes all comments out of a tree and leaves every other node with its label where it was.
The nodes of the erased tree are those of the tree that are no comments, in the same order
(`Tree.preorder_erase`).

Looking for a child in the erased tree gives the child that is found in the tree, erased, as long as the
look-up passes over comments.  It does by itself where only children proper or tokens are looked for
(`Tree.firstProper?_erase`, `Tree.token?_erase`).  Where a part is looked for, comments must not play
one, which is what `Tree.CommentsApart` promises (`Tree.CommentsApart.field?_erase`).
-/

namespace PlainComponents

namespace Tree

variable {t n c : Tree}

mutual

/-- The tree without the comments below its root. -/
def erase : Tree → Tree
  | node l cs => node l (eraseAll cs)

/-- The trees that are no comments, each without the comments below it. -/
def eraseAll : List Tree → List Tree
  | [] => []
  | c :: cs => if c.kind.isComment then eraseAll cs else c.erase :: eraseAll cs

end

@[simp] theorem label_erase (t : Tree) : t.erase.label = t.label := by
  cases t
  rfl

@[simp] theorem kind_erase (t : Tree) : t.erase.kind = t.kind :=
  congrArg Label.kind t.label_erase

@[simp] theorem start_erase (t : Tree) : t.erase.start = t.start :=
  congrArg Label.start t.label_erase

@[simp] theorem stop_erase (t : Tree) : t.erase.stop = t.stop :=
  congrArg Label.stop t.label_erase

@[simp] theorem text_erase (src : Text) (t : Tree) : t.erase.text src = t.text src := by
  rw [text, text, start_erase, stop_erase]

@[simp] theorem isProper_erase (t : Tree) : t.erase.isProper = t.isProper := by
  rw [isProper, isProper, label_erase, kind_erase]

theorem eraseAll_eq_map (cs : List Tree) :
    eraseAll cs = (cs.filter fun c => !c.kind.isComment).map erase := by
  induction cs with
  | nil => rfl
  | cons c cs ih =>
    rw [eraseAll, ih]
    cases hc : c.kind.isComment with
    | true => simp [hc]
    | false => simp [hc]

theorem children_erase (t : Tree) :
    t.erase.children = (t.children.filter fun c => !c.kind.isComment).map erase := by
  obtain ⟨l, cs⟩ := t
  exact eraseAll_eq_map cs

/-! ### Nodes -/

/-- Comments are leaves and play no part. -/
def CommentsApart (t : Tree) : Prop :=
  ∀ n ∈ t.preorder, n.kind.isComment = true → n.children.isEmpty = true ∧ n.label.field = none

instance (t : Tree) : Decidable t.CommentsApart :=
  inferInstanceAs (Decidable (∀ n ∈ t.preorder, _))

theorem CommentsApart.of_mem (h : t.CommentsApart) (hn : n ∈ t.preorder) : n.CommentsApart :=
  fun m hm => h m (mem_preorder_trans hm hn)

theorem CommentsApart.of_child (h : t.CommentsApart) (hc : c ∈ t.children) : c.CommentsApart :=
  h.of_mem (child_mem_preorder hc)

/-- Below the root, the nodes of the erased tree are the nodes that are no comments, in the same order. -/
theorem preorder_erase (h : t.CommentsApart) : t.erase.preorder =
    t.erase :: (t.preorder.tail.filter fun n => !n.kind.isComment).map erase := by
  induction t using inductionOn with
  | node l cs ih =>
    have hall : ∀ ds, (∀ c ∈ ds, c ∈ cs) → (eraseAll ds).flatMap preorder =
        ((ds.flatMap preorder).filter fun n => !n.kind.isComment).map erase := by
      intro ds
      induction ds with
      | nil =>
        intro _
        rfl
      | cons c ds ihds =>
        intro hds
        rw [List.forall_mem_cons] at hds
        have hc : c.CommentsApart := h.of_child hds.1
        have hrest := ihds hds.2
        rw [eraseAll, List.flatMap_cons, List.filter_append, List.map_append, ← hrest]
        obtain ⟨cl, ccs⟩ := c
        rw [kind_node]
        cases hk : cl.kind.isComment with
        | true =>
          -- a comment is a leaf, so it leaves nothing behind
          obtain ⟨hleaf, -⟩ := hc _ (mem_preorder_self _) hk
          obtain rfl : ccs = [] := List.isEmpty_iff.1 hleaf
          simp [preorder_node, hk]
        | false =>
          have hcs := ih _ hds.1 hc
          rw [preorder_node cl ccs, List.tail_cons] at hcs
          rw [if_neg Bool.false_ne_true, List.flatMap_cons, hcs, preorder_node,
            List.filter_cons_of_pos (by rw [kind_node, hk, Bool.not_false]), List.map_cons]
    rw [preorder_node l cs, List.tail_cons, ← hall cs fun _ hc => hc]
    exact preorder_node l (eraseAll cs)

/-! ### Children -/

/-- A look-up that passes over comments finds the same child. -/
theorem find?_children_erase {p : Tree → Bool} (hp : ∀ c, p c.erase = p c)
    (hcomment : ∀ c ∈ t.children, c.kind.isComment = true → p c = false) :
    t.erase.children.find? p = (t.children.find? p).map erase := by
  obtain ⟨l, cs⟩ := t
  show (eraseAll cs).find? p = (cs.find? p).map erase
  replace hcomment : ∀ c ∈ cs, c.kind.isComment = true → p c = false := hcomment
  induction cs with
  | nil => rfl
  | cons c cs ih =>
    rw [List.forall_mem_cons] at hcomment
    rw [eraseAll, List.find?_cons]
    split
    next hk => rw [hcomment.1 hk, ih hcomment.2]
    next hk =>
      rw [List.find?_cons, hp c, ih hcomment.2]
      cases p c <;> rfl

theorem CommentsApart.field?_erase (h : t.CommentsApart) (f : Field) :
    t.erase.field? f = (t.field? f).map erase := by
  apply find?_children_erase
  · intro c
    rw [label_erase]
  · intro c hc hk
    rw [(h c (child_mem_preorder hc) hk).2]
    rfl

theorem isProper_of_isComment (h : c.kind.isComment = true) : c.isProper = false := by
  rw [isProper, h, Bool.not_true, Bool.and_false]

theorem firstProper?_erase (t : Tree) : t.erase.firstProper? = t.firstProper?.map erase := by
  apply find?_children_erase isProper_erase
  intro c _ hk
  exact isProper_of_isComment hk

theorem isFirst_playing_erase_iff (h : t.CommentsApart) {f : Field} {c' : Tree} :
    t.erase.IsFirst (Playing f) c' ↔ ∃ c, t.IsFirst (Playing f) c ∧ c.erase = c' := by
  simp only [← field?_eq_some_iff, h.field?_erase, Option.map_eq_some_iff]

theorem isFirst_counts_erase_iff {c' : Tree} :
    t.erase.IsFirst Counts c' ↔ ∃ c, t.IsFirst Counts c ∧ c.erase = c' := by
  simp only [← firstProper?_eq_some_iff, firstProper?_erase, Option.map_eq_some_iff]

theorem token?_erase (t : Tree) {k : Kind} (hk : k.isComment = false) :
    t.erase.token? k = (t.token? k).map erase := by
  apply find?_children_erase
  · intro c
    rw [label_erase, kind_erase]
  · intro c _ hc
    have hne : c.kind ≠ k := by
      rintro rfl
      cases hk.symm.trans hc
    rw [decide_eq_false hne, Bool.and_false]

theorem properChildren_erase (t : Tree) : t.erase.properChildren = t.properChildren.map erase := by
  rw [properChildren, properChildren, children_erase, List.filter_map, List.filter_filter]
  congr 1
  apply List.filter_congr
  intro c _
  cases hk : c.kind.isComment with
  | true => simp [isProper_of_isComment hk]
  | false => simp

/-- Intersections have the same members. -/
theorem flatten_erase (t : Tree) : t.erase.flatten = t.flatten.map erase := by
  induction t using inductionOn with
  | node l cs ih =>
    show flattenAll (eraseAll cs) = (flattenAll cs).map erase
    induction cs with
    | nil => rfl
    | cons c cs ihcs =>
      rw [List.forall_mem_cons] at ih
      have hrest := ihcs ih.2
      rw [eraseAll, flattenAll]
      split
      next hk => rw [hrest, if_neg (by simp [isProper_of_isComment hk])]
      next hk =>
        rw [flattenAll, isProper_erase, kind_erase, hrest, ih.1]
        split
        · split
          · rw [List.map_append]
          · rw [List.map_cons]
        · rfl

end Tree

end PlainComponents
