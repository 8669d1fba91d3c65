import PlainComponents.Proofs.Text.Offset
import PlainComponents.Proofs.Tree.Preorder

/-!
# Trees as a parser yields them

The analysis takes any tree.  What it computes is about a source only if the tree is one that a parser
can have produced for it.  This module collects what is promised:

* `Tree.WellSpaced`: the children of a node stand one after the other inside it;
* `Tree.Nested`: they lie inside it, in any order;
* `Tree.OnBoundaries`: nodes start and stop between characters of the source;
* `Tree.Parsed`: spans are well spaced, the name of a declarator precedes its type, which precedes its
  value, and the parameter list of a function is one;
* `Tree.Delimited`: names are not empty, identifiers and tokens are leaves, and a parameter list ends in
  a token;
* `Tree.Lexical`: names of types hold no declarations, and a declarator has one type.

All of these can be evaluated on a given tree.
-/

namespace PlainComponents

namespace Tree

/-! ### Spans -/

/-- The trees stand one after the other between two offsets. -/
def Spaced : Nat → List Tree → Nat → Prop
  | pos, [], stop => pos ≤ stop
  | pos, c :: cs, stop => pos ≤ c.start ∧ c.start ≤ c.stop ∧ Spaced c.stop cs stop

instance decidableSpaced : ∀ pos cs stop, Decidable (Spaced pos cs stop)
  | pos, [], stop => inferInstanceAs (Decidable (pos ≤ stop))
  | _, c :: cs, stop =>
    have := decidableSpaced c.stop cs stop
    inferInstanceAs (Decidable (_ ∧ _ ∧ Spaced c.stop cs stop))

/-- Everywhere in the tree, the children of a node stand one after the other inside it. -/
def WellSpaced (t : Tree) : Prop :=
  ∀ n ∈ t.preorder, Spaced n.start n.children n.stop

/-- All nodes start and stop between characters of the source. -/
def OnBoundaries (src : Text) (t : Tree) : Prop :=
  ∀ n ∈ t.preorder, src.isBoundary n.start ∧ src.isBoundary n.stop

instance (t : Tree) : Decidable t.WellSpaced :=
  inferInstanceAs (Decidable (∀ n ∈ t.preorder, _))

instance (src : Text) (t : Tree) : Decidable (t.OnBoundaries src) :=
  inferInstanceAs (Decidable (∀ n ∈ t.preorder, _))

theorem Spaced.le {pos stop : Nat} {cs : List Tree} (h : Spaced pos cs stop) : pos ≤ stop := by
  induction cs generalizing pos with
  | nil => exact h
  | cons c cs ih =>
    obtain ⟨h₁, h₂, h₃⟩ := h
    have := ih h₃
    omega

theorem Spaced.bounds {pos stop : Nat} {cs : List Tree} (h : Spaced pos cs stop) :
    ∀ c ∈ cs, pos ≤ c.start ∧ c.start ≤ c.stop ∧ c.stop ≤ stop := by
  induction cs generalizing pos with
  | nil => simp
  | cons c cs ih =>
    obtain ⟨h₁, h₂, h₃⟩ := h
    intro d hd
    rcases List.mem_cons.1 hd with rfl | hd
    · exact ⟨h₁, h₂, h₃.le⟩
    · have := ih h₃ d hd
      omega

theorem Spaced.mono_left {pos pos' stop : Nat} {cs : List Tree} (h : Spaced pos cs stop)
    (hpos : pos' ≤ pos) : Spaced pos' cs stop := by
  cases cs with
  | nil => exact Nat.le_trans hpos h
  | cons c cs => exact ⟨Nat.le_trans hpos h.1, h.2⟩

theorem Spaced.append {pos mid stop : Nat} {cs ds : List Tree} (h : Spaced pos cs mid)
    (h' : Spaced mid ds stop) : Spaced pos (cs ++ ds) stop := by
  induction cs generalizing pos with
  | nil => exact h'.mono_left h
  | cons c cs ih => exact ⟨h.1, h.2.1, ih h.2.2⟩

/-- Some of the trees, in the same order, are spaced as well. -/
theorem Spaced.sublist {pos stop : Nat} {cs ds : List Tree} (hsub : ds.Sublist cs)
    (h : Spaced pos cs stop) : Spaced pos ds stop := by
  induction hsub generalizing pos with
  | slnil => exact h
  | cons c _ ih =>
    obtain ⟨h₁, h₂, h₃⟩ := h
    exact (ih h₃).mono_left (Nat.le_trans h₁ h₂)
  | cons_cons c _ ih =>
    obtain ⟨h₁, h₂, h₃⟩ := h
    exact ⟨h₁, h₂, ih h₃⟩

/-- Around one of the trees the others are spaced as well. -/
theorem Spaced.split {pos stop : Nat} {cs ds : List Tree} {c : Tree}
    (h : Spaced pos (cs ++ c :: ds) stop) :
    Spaced pos cs c.start ∧ c.start ≤ c.stop ∧ Spaced c.stop ds stop := by
  induction cs generalizing pos with
  | nil => exact h
  | cons a cs ih =>
    obtain ⟨h₁, h₂, h₃⟩ := h
    obtain ⟨hcs, hc, hds⟩ := ih h₃
    exact ⟨⟨h₁, h₂, hcs⟩, hc, hds⟩

/-- Parts of neighbouring trees are spaced as the trees are. -/
theorem Spaced.flatMap {pos stop : Nat} {cs : List Tree} {f : Tree → List Tree}
    (h : Spaced pos cs stop) (hf : ∀ c ∈ cs, Spaced c.start (f c) c.stop) :
    Spaced pos (cs.flatMap f) stop := by
  induction cs generalizing pos with
  | nil => exact h
  | cons c cs ih =>
    obtain ⟨h₁, -, h₃⟩ := h
    obtain ⟨hc, hcs⟩ := List.forall_mem_cons.1 hf
    rw [List.flatMap_cons]
    exact (hc.mono_left h₁).append (ih h₃ hcs)

variable {src : Text} {t c n : Tree}

theorem WellSpaced.children (h : t.WellSpaced) : Spaced t.start t.children t.stop :=
  h t t.mem_preorder_self

theorem WellSpaced.le (h : t.WellSpaced) : t.start ≤ t.stop :=
  h.children.le

theorem WellSpaced.singleton (h : t.WellSpaced) : Spaced t.start [t] t.stop :=
  ⟨Nat.le_refl _, h.le, Nat.le_refl _⟩

theorem WellSpaced.of_mem (h : t.WellSpaced) (hn : n ∈ t.preorder) : n.WellSpaced :=
  fun _ hm => h _ (mem_preorder_trans hm hn)

theorem OnBoundaries.of_mem (h : t.OnBoundaries src) (hn : n ∈ t.preorder) : n.OnBoundaries src :=
  fun _ hm => h _ (mem_preorder_trans hm hn)

/-- Everything below a node lies inside it. -/
theorem WellSpaced.bounds (h : t.WellSpaced) (hn : n ∈ t.preorder) :
    t.start ≤ n.start ∧ n.start ≤ n.stop ∧ n.stop ≤ t.stop := by
  induction t using inductionOn with
  | node l cs ih =>
    have hcs : Spaced l.start cs l.stop := h.children
    rcases mem_preorder_node.1 hn with rfl | ⟨c, hc, hnc⟩
    · exact ⟨Nat.le_refl _, hcs.le, Nat.le_refl _⟩
    · have h₁ := hcs.bounds c hc
      have h₂ := ih c hc (h.of_mem (child_mem_preorder hc)) hnc
      simp only [start_node, stop_node]
      omega

/-- Nodes come in the order of their starts. -/
theorem WellSpaced.pairwise_start (h : t.WellSpaced) :
    t.preorder.Pairwise fun m n => m.start ≤ n.start := by
  induction t using inductionOn with
  | node l cs ih =>
    have hall : ∀ ds pos, (∀ c ∈ ds, c ∈ cs) → Spaced pos ds l.stop →
        (ds.flatMap preorder).Pairwise (fun m n => m.start ≤ n.start) ∧
          ∀ n ∈ ds.flatMap preorder, pos ≤ n.start := by
      intro ds
      induction ds with
      | nil =>
        intro pos _ _
        exact ⟨List.Pairwise.nil, by simp⟩
      | cons c ds ihds =>
        intro pos hds hspaced
        rw [List.forall_mem_cons] at hds
        obtain ⟨hpos, hle, hrest⟩ := hspaced
        have hc : c.WellSpaced := h.of_mem (child_mem_preorder (t := node l cs) hds.1)
        obtain ⟨hsorted, hlater⟩ := ihds c.stop hds.2 hrest
        rw [List.flatMap_cons]
        constructor
        · -- what is in the child starts before it ends, and the rest starts behind it
          refine List.pairwise_append.2 ⟨ih c hds.1 hc, hsorted, ?_⟩
          intro m hm n hn
          have hbounds := hc.bounds hm
          have hbehind := hlater n hn
          omega
        · intro n hn
          rcases List.mem_append.1 hn with hn | hn
          · exact Nat.le_trans hpos (hc.bounds hn).1
          · exact Nat.le_trans hpos (Nat.le_trans hle (hlater n hn))
    obtain ⟨hsorted, hinside⟩ := hall cs l.start (fun _ hc => hc) h.children
    rw [preorder_node]
    exact List.Pairwise.cons hinside hsorted

/-- Everywhere in the tree, the children of a node lie inside it. -/
def Nested (t : Tree) : Prop :=
  ∀ n ∈ t.preorder, ∀ c ∈ n.children, n.start ≤ c.start ∧ c.stop ≤ n.stop

instance (t : Tree) : Decidable t.Nested :=
  inferInstanceAs (Decidable (∀ n ∈ t.preorder, _))

/-- Where children lie inside their parents, so does everything below a node. -/
theorem Nested.bounds (h : t.Nested) (hn : n ∈ t.preorder) : t.start ≤ n.start ∧ n.stop ≤ t.stop := by
  induction t using inductionOn with
  | node l cs ih =>
    rcases mem_preorder_node.1 hn with rfl | ⟨c, hc, hnc⟩
    · exact ⟨Nat.le_refl _, Nat.le_refl _⟩
    · have hnested : c.Nested := fun m hm => h m (mem_preorder_node.2 (.inr ⟨c, hc, hm⟩))
      have hchild := h (node l cs) (mem_preorder_self _) c hc
      have hbelow := ih c hc hnested hnc
      exact ⟨Nat.le_trans hchild.1 hbelow.1, Nat.le_trans hbelow.2 hchild.2⟩

/-- The members of an intersection stand one after the other inside it, however it is nested. -/
theorem WellSpaced.flatten (h : t.WellSpaced) : Spaced t.start t.flatten t.stop := by
  induction t using inductionOn with
  | node l cs ih =>
    rw [flatten_eq_flatMap]
    refine h.children.flatMap fun c hc => ?_
    have hspaced := h.of_mem (child_mem_preorder hc)
    split
    · rw [operands]
      split
      · exact ih c hc hspaced
      · exact hspaced.singleton
    · exact hspaced.le

/-! ### Parts in order -/

/-- Whether a node plays the part `f` in its parent. -/
def plays (f : Field) (t : Tree) : Bool :=
  t.label.field = some f

theorem field?_eq_find? (f : Field) : t.field? f = t.children.find? (plays f) := rfl

theorem plays_iff {f : Field} : t.plays f = true ↔ t.label.field = some f := by
  simp [plays]

theorem not_plays_of_plays {f g : Field} (hfg : f ≠ g) (h : t.plays f = true) :
    t.plays g = false := by
  rw [plays_iff] at h
  simp [plays, h, hfg]

/-- Whether a node is a token of kind `k`. -/
def isToken (k : Kind) (t : Tree) : Bool :=
  !t.label.named && t.kind = k

/-- The first child that passes the test `p` stands before the first that passes `q`. -/
def Before (p q : Tree → Bool) (t : Tree) : Prop :=
  (t.children.find? p).isSome → (t.children.find? q).isSome →
    t.children.findIdx p < t.children.findIdx q

instance (p q : Tree → Bool) (t : Tree) : Decidable (Before p q t) :=
  inferInstanceAs (Decidable (_ → _ → _))

/-- The first children that pass the tests stand in the order of the tests. -/
def InOrder (tests : List (Tree → Bool)) (t : Tree) : Prop :=
  tests.Pairwise fun p q => Before p q t

instance (tests : List (Tree → Bool)) (t : Tree) : Decidable (InOrder tests t) :=
  inferInstanceAs (Decidable (List.Pairwise _ _))

/-- The first child that plays the part `f` stands before the first that plays `g`. -/
def Precedes (f g : Field) (t : Tree) : Prop :=
  Before (plays f) (plays g) t

instance (f g : Field) (t : Tree) : Decidable (Precedes f g t) :=
  inferInstanceAs (Decidable (Before _ _ t))

theorem findIdx_append_cons {p : Tree → Bool} {pre : List Tree} {a : Tree} (post : List Tree)
    (hpre : ∀ x ∈ pre, p x = false) (ha : p a = true) :
    (pre ++ a :: post).findIdx p = pre.length := by
  rw [List.findIdx_append, List.findIdx_eq_length_of_false hpre, if_neg (by omega),
    List.findIdx_cons, ha]
  simp

/-- Children in order cut the list of children at both. -/
theorem Before.exists_split {p q : Tree → Bool} {a b : Tree} (h : Before p q t)
    (ha : t.children.find? p = some a) (hb : t.children.find? q = some b) :
    ∃ pre mid post, t.children = pre ++ a :: (mid ++ b :: post) ∧
      (∀ x ∈ pre, p x = false) ∧ (∀ x ∈ pre, q x = false) ∧ ∀ x ∈ mid, q x = false := by
  have hlt := h (by rw [ha]; rfl) (by rw [hb]; rfl)
  obtain ⟨hpa, pre, rest, hcs, hpre⟩ := List.find?_eq_some_iff_append.1 ha
  obtain ⟨hqb, pre', post, hcs', hpre'⟩ := List.find?_eq_some_iff_append.1 hb
  have hpre : ∀ x ∈ pre, p x = false := fun x hx => by simpa using hpre x hx
  have hpre' : ∀ x ∈ pre', q x = false := fun x hx => by simpa using hpre' x hx
  have hi := findIdx_append_cons rest hpre hpa
  have hj := findIdx_append_cons post hpre' hqb
  rw [← hcs] at hi
  rw [← hcs'] at hj
  rw [hi, hj] at hlt
  -- the cut at `b` lies behind the cut at `a`
  rcases List.append_eq_append_iff.1 (hcs.symm.trans hcs') with ⟨u, hu, hrest⟩ | ⟨u, hu, hrest⟩
  · cases u with
    | nil => simp [hu] at hlt
    | cons x mid =>
      obtain ⟨rfl, hrest⟩ := List.cons.inj hrest
      subst hu
      refine ⟨pre, mid, post, by rw [hcs, hrest, List.cons_append], hpre,
        fun x hx => hpre' x ?_, fun x hx => hpre' x ?_⟩
      · exact List.mem_append_left _ hx
      · exact List.mem_append_right _ (List.mem_cons_of_mem _ hx)
  · rw [hu, List.length_append] at hlt
    omega

/-- Children in order do not overlap. -/
theorem Before.stop_le {p q : Tree → Bool} {a b : Tree} (h : Before p q t) (hs : t.WellSpaced)
    (ha : t.children.find? p = some a) (hb : t.children.find? q = some b) : a.stop ≤ b.start := by
  obtain ⟨pre, mid, post, hcs, -⟩ := h.exists_split ha hb
  have hspaced := hs.children
  rw [hcs] at hspaced
  exact hspaced.split.2.2.split.1.le

/-! ### The grammar -/

end Tree

/-- The kinds of node that are functions. -/
def Kind.isFunction : Kind → Bool
  | arrowFunction | functionExpression | function => true
  | _ => false

/-- The kind of a parameter list in parentheses. -/
def Kind.formalParameters : Kind :=
  other "formal_parameters"

namespace Tree

/-- What a parser promises of the constructs that are analysed. -/
structure Parsed (t : Tree) : Prop where
  spaced : t.WellSpaced
  declarators : ∀ n ∈ t.preorder, n.kind = .variableDeclarator →
    n.Precedes .name .type ∧ n.Precedes .type .value
  parameters : ∀ n ∈ t.preorder, n.kind.isFunction →
    (n.field? .parameters).all (·.kind = .formalParameters)

theorem Parsed.of_mem {t n : Tree} (h : t.Parsed) (hn : n ∈ t.preorder) : n.Parsed where
  spaced := h.spaced.of_mem hn
  declarators m hm := h.declarators m (mem_preorder_trans hm hn)
  parameters m hm := h.parameters m (mem_preorder_trans hm hn)

theorem Parsed.of_child {t c : Tree} (h : t.Parsed) (hc : c ∈ t.children) : c.Parsed :=
  h.of_mem (child_mem_preorder hc)

/-- At most one child plays the part `f`. -/
def Once (f : Field) (t : Tree) : Prop :=
  (t.children.filter (plays f)).length ≤ 1

instance (f : Field) (t : Tree) : Decidable (Once f t) :=
  inferInstanceAs (Decidable (_ ≤ _))

/-- Beside the child that plays the part there is no other. -/
theorem Once.not_plays {f : Field} {t b : Tree} {pre post : List Tree} (h : t.Once f)
    (hcs : t.children = pre ++ b :: post) (hb : b.plays f = true) :
    ∀ x ∈ pre ++ post, x.plays f = false := by
  intro x hx
  cases hplays : x.plays f with
  | false => rfl
  | true =>
    have hpos := List.length_pos_of_mem (List.mem_filter.2 ⟨hx, hplays⟩)
    rw [Once, hcs] at h
    simp only [List.filter_append, List.filter_cons, hb, if_true, List.length_append,
      List.length_cons] at h hpos
    omega

/-- What a parser promises of the tokens that delimit a construct. -/
structure Delimited (t : Tree) : Prop where
  identifiers : ∀ n ∈ t.preorder, n.kind = .identifier → n.children.isEmpty
  names : ∀ n ∈ t.preorder, n.kind = .variableDeclarator →
    n.Once .name ∧ (n.field? .name).all fun c => c.start < c.stop
  /-- Beside its parts a declarator has only tokens and comments. -/
  tokens : ∀ n ∈ t.preorder, n.kind = .variableDeclarator → ∀ c ∈ n.children,
    c.plays .name ∨ c.plays .type ∨ c.plays .value ∨ c.children.isEmpty
  bare : ∀ n ∈ t.preorder, n.kind.isFunction →
    (n.field? .parameter).all fun c => c.kind = .identifier ∧ c.start < c.stop
  /-- A parameter list ends in the token that closes it. -/
  closed : ∀ n ∈ t.preorder, n.kind = .formalParameters →
    n.children.getLast?.all fun c => !c.label.named ∧ c.start < c.stop

theorem Delimited.of_mem {t n : Tree} (h : t.Delimited) (hn : n ∈ t.preorder) : n.Delimited where
  identifiers m hm := h.identifiers m (mem_preorder_trans hm hn)
  names m hm := h.names m (mem_preorder_trans hm hn)
  tokens m hm := h.tokens m (mem_preorder_trans hm hn)
  bare m hm := h.bare m (mem_preorder_trans hm hn)
  closed m hm := h.closed m (mem_preorder_trans hm hn)

/-- What a parser promises of names, and of the types of declarators. -/
structure Lexical (t : Tree) : Prop where
  identifiers : ∀ n ∈ t.preorder, n.kind = .identifier → n.label.named
  typeNames : ∀ n ∈ t.preorder, n.kind = .typeIdentifier → n.children.isEmpty
  qualified : ∀ n ∈ t.preorder, n.kind = .nestedTypeIdentifier →
    ∀ m ∈ n.preorder, m.kind ≠ .variableDeclarator
  types : ∀ n ∈ t.preorder, n.kind = .variableDeclarator → n.Once .type

theorem Lexical.of_mem {t n : Tree} (h : t.Lexical) (hn : n ∈ t.preorder) : n.Lexical where
  identifiers m hm := h.identifiers m (mem_preorder_trans hm hn)
  typeNames m hm := h.typeNames m (mem_preorder_trans hm hn)
  qualified m hm := h.qualified m (mem_preorder_trans hm hn)
  types m hm := h.types m (mem_preorder_trans hm hn)

end Tree

end PlainComponents
