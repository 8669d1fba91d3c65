import Mathlib
import PlainComponents.Proofs.Conversion.PropsNote

/-!
# What props are made of

Props are written anew, on one line and with their own separators.  Nothing of the source gets lost on
the way: the text that is written is put together from ranges of the source, copied as they stand and in
their order, and from a few signs between and around them (`Piece`).  The ranges are disjoint, so nothing
is written twice, and what matters about the type lies inside one of them (`Tree.Retains`): its members,
and all its comments, however deep they stand.

`Tree.copied` says which nodes are copied.  That they cover what has to be retained
(`Tree.Retains.exists_copied`) is a fact about trees alone; `Piece.render_ofProps` ties them to the text.
-/

namespace PlainComponents

/-! ### Pieces of a text -/

/-- A range of a source. -/
structure Span where
  start : Nat
  stop : Nat
  deriving DecidableEq

/-- The node lies inside the range. -/
def Span.Holds (s : Span) (t : Tree) : Prop :=
  s.start ≤ t.start ∧ t.stop ≤ s.stop

/-- A sign that is written between or around what is copied. -/
inductive Sign where
  | opening
  | closing
  /-- The blank inside a brace. -/
  | pad
  | separator (separator : Separator)
  | ampersand
  deriving DecidableEq

def Sign.text : Sign → Text
  | opening => ['\x7b']
  | closing => ['\x7d']
  | pad => [' ']
  | separator .comma => [',', ' ']
  | separator .semicolon => [';', ' ']
  | ampersand => [' ', '&', ' ']

/-- A piece of a text: a range of the source, or a sign. -/
inductive Piece where
  | range (span : Span)
  | sign (sign : Sign)
  deriving DecidableEq

namespace Piece

def text (src : Text) : Piece → Text
  | range s => src.slice s.start s.stop
  | sign s => s.text

def isRange : Piece → Bool
  | range _ => true
  | sign _ => false

/-- The text that pieces make one after the other. -/
def textAll (src : Text) (ps : List Piece) : Text :=
  ps.flatMap (text src)

/-- The ranges among pieces. -/
def spans (ps : List Piece) : List Span :=
  ps.filterMap fun
    | range s => some s
    | sign _ => none

/-- Between any two ranges there is a sign. -/
def Separated (ps : List Piece) : Prop :=
  ps.IsChain fun a b => ¬ (a.isRange = true ∧ b.isRange = true)

variable {src : Text} {ps qs : List Piece}

@[simp] theorem textAll_nil (src : Text) : textAll src [] = [] := rfl

@[simp] theorem textAll_cons (src : Text) (p : Piece) (ps : List Piece) :
    textAll src (p :: ps) = p.text src ++ textAll src ps := rfl

@[simp] theorem textAll_append (src : Text) (ps qs : List Piece) :
    textAll src (ps ++ qs) = textAll src ps ++ textAll src qs :=
  List.flatMap_append

@[simp] theorem spans_nil : spans [] = [] := rfl

@[simp] theorem spans_range (s : Span) (ps : List Piece) : spans (range s :: ps) = s :: spans ps := rfl

@[simp] theorem spans_sign (s : Sign) (ps : List Piece) : spans (sign s :: ps) = spans ps := rfl

@[simp] theorem spans_append (ps qs : List Piece) : spans (ps ++ qs) = spans ps ++ spans qs :=
  List.filterMap_append

theorem separated_singleton (p : Piece) : Separated [p] :=
  List.isChain_singleton p

/-- A sign may stand before anything. -/
theorem Separated.sign_cons (s : Sign) (h : Separated ps) : Separated (sign s :: ps) := by
  refine List.isChain_cons.2 ⟨fun q _ => ?_, h⟩
  simp [isRange]

/-- A sign may stand between anything. -/
theorem Separated.append_sign (s : Sign) (hp : Separated ps) (hq : Separated qs) :
    Separated (ps ++ sign s :: qs) := by
  refine List.isChain_append.2 ⟨hp, hq.sign_cons s, fun p _ q hq => ?_⟩
  obtain rfl : sign s = q := by simpa using hq
  simp [isRange]

/-! ### Blocks of pieces -/

/-- Blocks one after the other, with a sign between neighbours. -/
def joined (s : Sign) : List (List Piece) → List Piece
  | [] => []
  | [b] => b
  | b :: c :: bs => b ++ sign s :: joined s (c :: bs)

theorem textAll_joined (src : Text) (s : Sign) (bs : List (List Piece)) :
    textAll src (joined s bs) = Text.joinWith s.text (bs.map (textAll src)) := by
  induction bs with
  | nil => rfl
  | cons b bs ih =>
    cases bs with
    | nil => rfl
    | cons c bs =>
      rw [joined, textAll_append, textAll_cons, ih]
      simp [Text.joinWith, text]

theorem spans_joined (s : Sign) (bs : List (List Piece)) : spans (joined s bs) = bs.flatMap spans := by
  induction bs with
  | nil => rfl
  | cons b bs ih =>
    cases bs with
    | nil => simp [joined]
    | cons c bs => rw [joined, spans_append, spans_sign, ih, ← List.flatMap_cons]

theorem separated_joined (s : Sign) {bs : List (List Piece)} (h : ∀ b ∈ bs, Separated b) :
    Separated (joined s bs) := by
  induction bs with
  | nil => exact List.isChain_nil
  | cons b bs ih =>
    obtain ⟨hb, hbs⟩ := List.forall_mem_cons.1 h
    cases bs with
    | nil => exact hb
    | cons c bs => exact hb.append_sign s (ih hbs)

/-- A node as it stands. -/
def ofTree (t : Tree) : Piece :=
  range ⟨t.start, t.stop⟩

@[simp] theorem text_ofTree (src : Text) (t : Tree) : (ofTree t).text src = t.text src := rfl

/-- The blank inside a brace, if there is one. -/
def padding : Bool → List Piece
  | true => [sign .pad]
  | false => []

/-- Nodes in braces. -/
def braced (separator : Separator) (padded : Bool) (members : List Tree) : List Piece :=
  if members.isEmpty then [sign .opening, sign .closing]
  else
    sign .opening :: (padding padded ++
      joined (.separator separator) (members.map fun m => [ofTree m]) ++ padding padded ++
      [sign .closing])

theorem textAll_braced {l : Literal} {members : List Tree}
    (h : l.members.map Member.text = members.map (Tree.text src)) :
    textAll src (braced l.separator l.padded members) = l.render := by
  have hempty : l.members.isEmpty = members.isEmpty := by
    simpa using congrArg List.isEmpty h
  have hsign : (Sign.separator l.separator).text = l.separator.text := by
    cases l.separator <;> rfl
  have hpad : textAll src (padding l.padded) = if l.padded then [' '] else [] := by
    cases l.padded <;> rfl
  have hmembers : (members.map fun m => [ofTree m]).map (textAll src) = l.members.map Member.text := by
    rw [h, List.map_map]
    simp [Function.comp_def]
  rw [braced, Literal.render, hempty]
  by_cases hm : members.isEmpty
  · rw [if_pos hm, if_pos hm]
    rfl
  · rw [if_neg hm, if_neg hm]
    simp only [textAll_cons, textAll_append, textAll_joined, textAll_nil, hsign, hpad, hmembers]
    simp [text, Sign.text]

theorem spans_braced (separator : Separator) (padded : Bool) (members : List Tree) :
    spans (braced separator padded members) = members.map fun m => ⟨m.start, m.stop⟩ := by
  have hpad : spans (padding padded) = [] := by
    cases padded <;> rfl
  rw [braced]
  split
  next h =>
    rw [List.isEmpty_iff.1 h]
    rfl
  next =>
    rw [spans_sign, spans_append, spans_append, spans_append, hpad, spans_joined, List.flatMap_map]
    simp [ofTree, ← List.map_eq_flatMap]

theorem separated_braced (separator : Separator) (padded : Bool) (members : List Tree) :
    Separated (braced separator padded members) := by
  have hclosing := separated_singleton (sign .closing)
  have hmembers : Separated (joined (.separator separator) (members.map fun m => [ofTree m])) := by
    apply separated_joined
    intro b hb
    obtain ⟨m, -, rfl⟩ := List.mem_map.1 hb
    exact separated_singleton _
  rw [braced]
  split
  · exact hclosing.sign_cons .opening
  · cases padded with
    | false => simpa [padding] using (hmembers.append_sign .closing List.isChain_nil).sign_cons .opening
    | true =>
      simpa [padding] using ((hmembers.append_sign .pad hclosing).sign_cons .pad).sign_cons .opening

end Piece

/-! ### The nodes that are copied -/

namespace Tree

/-- The nodes of an object type that are copied: its members, or all of it if there are comments among
them. -/
def objectCopied (t : Tree) : List Tree :=
  if t.hasComment then [t] else t.properChildren

/-- The nodes of a member of an intersection that are copied. -/
def memberCopied (t : Tree) : List Tree :=
  if t.kind = .objectType then t.objectCopied else [t]

/-- The nodes of a props type that are copied. -/
def copied (t : Tree) : List Tree :=
  if t.kind = .objectType then t.objectCopied
  else if t.kind = .intersectionType ∧ t.containsComment = false then t.flatten.flatMap memberCopied
  else [t]

variable {n t m : Tree}

theorem mem_preorder_of_mem_properChildren (h : m ∈ t.properChildren) : m ∈ t.preorder :=
  child_mem_preorder (List.mem_filter.1 h).1

theorem mem_preorder_of_mem_objectCopied (h : m ∈ t.objectCopied) : m ∈ t.preorder := by
  rw [objectCopied] at h
  split at h
  · obtain rfl := List.mem_singleton.1 h
    exact m.mem_preorder_self
  · exact mem_preorder_of_mem_properChildren h

theorem mem_preorder_of_mem_memberCopied (h : m ∈ t.memberCopied) : m ∈ t.preorder := by
  rw [memberCopied] at h
  split at h
  · exact mem_preorder_of_mem_objectCopied h
  · obtain rfl := List.mem_singleton.1 h
    exact m.mem_preorder_self

theorem mem_preorder_of_mem_copied (h : m ∈ t.copied) : m ∈ t.preorder := by
  rw [copied] at h
  split at h
  · exact mem_preorder_of_mem_objectCopied h
  · split at h
    · obtain ⟨o, ho, hm⟩ := List.mem_flatMap.1 h
      exact mem_preorder_trans (mem_preorder_of_mem_memberCopied hm) (mem_preorder_of_mem_flatten ho)
    · obtain rfl := List.mem_singleton.1 h
      exact m.mem_preorder_self

theorem Spaced.pairwise {pos stop : Nat} {cs : List Tree} (h : Spaced pos cs stop) :
    cs.Pairwise fun a b => a.stop ≤ b.start := by
  induction cs generalizing pos with
  | nil => exact .nil
  | cons c cs ih =>
    obtain ⟨-, -, h⟩ := h
    exact List.pairwise_cons.2 ⟨fun d hd => (h.bounds d hd).1, ih h⟩

theorem WellSpaced.objectCopied (h : t.WellSpaced) : Spaced t.start t.objectCopied t.stop := by
  rw [Tree.objectCopied]
  split
  · exact h.singleton
  · exact h.children.sublist List.filter_sublist

theorem WellSpaced.memberCopied (h : t.WellSpaced) : Spaced t.start t.memberCopied t.stop := by
  rw [Tree.memberCopied]
  split
  · exact h.objectCopied
  · exact h.singleton

/-- What is copied stands one after the other inside the type. -/
theorem WellSpaced.copied (h : t.WellSpaced) : Spaced t.start t.copied t.stop := by
  rw [Tree.copied]
  split
  · exact h.objectCopied
  · split
    · refine h.flatten.flatMap fun c hc => ?_
      exact (h.of_mem (mem_preorder_of_mem_flatten hc)).memberCopied
    · exact h.singleton

/-! ### What is retained -/

/-- The nodes that matter about the props type `n`. -/
inductive Retains (n : Tree) : Tree → Prop
  /-- A comment anywhere below. -/
  | comment {m : Tree} (h : n.Reaches m) (hm : m.kind.isComment = true) : Retains n m
  /-- A reference itself. -/
  | reference (h : n.kind.isTypeReference = true) : Retains n n
  /-- A member of an object type. -/
  | member {m : Tree} (h : n.kind = .objectType) (hm : m ∈ n.properChildren) : Retains n m
  /-- A member of an intersection that is no object type. -/
  | operand {m : Tree} (h : n.kind = .intersectionType) (hm : m ∈ n.flatten)
      (hk : m.kind ≠ .objectType) : Retains n m
  /-- A member of an object type in an intersection. -/
  | inner {o m : Tree} (h : n.kind = .intersectionType) (ho : o ∈ n.flatten)
      (hk : o.kind = .objectType) (hm : m ∈ o.properChildren) : Retains n m

theorem Retains.mem_preorder (h : n.Retains m) : m ∈ n.preorder := by
  cases h with
  | comment h _ => exact h.mem_preorder
  | reference _ => exact n.mem_preorder_self
  | member _ hm => exact mem_preorder_of_mem_properChildren hm
  | operand _ hm _ => exact mem_preorder_of_mem_flatten hm
  | inner _ ho _ hm =>
    exact mem_preorder_trans (mem_preorder_of_mem_properChildren hm) (mem_preorder_of_mem_flatten ho)

/-- Without comments among the children, what is reached is reached through a child proper. -/
theorem Reaches.exists_properChild (h : n.Reaches m) (hn : n.hasComment = false) :
    ∃ c ∈ n.properChildren, m ∈ c.preorder := by
  have hproper : ∀ c ∈ n.children, c.label.named = true → c ∈ n.properChildren := by
    intro c hc hnamed
    have hcomment : c.isComment = false := by
      simpa using List.any_eq_false.1 hn c hc
    refine List.mem_filter.2 ⟨hc, ?_⟩
    simpa [isProper, isComment, hnamed] using hcomment
  cases h with
  | child hc hnamed => exact ⟨m, hproper m hc hnamed, m.mem_preorder_self⟩
  | @step _ c _ hc hnamed h => exact ⟨c, hproper c hc hnamed, h.mem_preorder⟩

theorem exists_objectCopied (h : n.Reaches m ∨ m ∈ n.properChildren) :
    ∃ c ∈ n.objectCopied, m ∈ c.preorder := by
  rw [objectCopied]
  split
  next =>
    refine ⟨n, List.mem_singleton_self n, ?_⟩
    rcases h with h | h
    · exact h.mem_preorder
    · exact mem_preorder_of_mem_properChildren h
  next hn =>
    rcases h with h | h
    · exact h.exists_properChild (by simpa using hn)
    · exact ⟨m, h, m.mem_preorder_self⟩

/-- What is retained lies in a node that is copied. -/
theorem Retains.exists_copied (h : n.Retains m) : ∃ c ∈ n.copied, m ∈ c.preorder := by
  have hin := h.mem_preorder
  rw [copied]
  split
  next hk =>
    cases h with
    | comment h _ => exact exists_objectCopied (.inl h)
    | reference h => rw [hk] at h; cases h
    | member _ hm => exact exists_objectCopied (.inr hm)
    | operand h => cases hk.symm.trans h
    | inner h => cases hk.symm.trans h
  next hk =>
    split
    next hi =>
      -- an intersection is taken apart only if it has no comment anywhere
      have hmem : ∀ o ∈ n.flatten, (∃ c ∈ o.memberCopied, m ∈ c.preorder) →
          ∃ c ∈ n.flatten.flatMap memberCopied, m ∈ c.preorder := by
        rintro o ho ⟨c, hc, hmc⟩
        exact ⟨c, List.mem_flatMap.2 ⟨o, ho, hc⟩, hmc⟩
      cases h with
      | comment h hm =>
        have hcontains := containsComment_iff.2 ⟨m, h, hm⟩
        rw [hi.2] at hcontains
        cases hcontains
      | reference h => rw [hi.1] at h; cases h
      | member h => exact absurd h hk
      | operand _ hm ho =>
        refine hmem m hm ⟨m, ?_, m.mem_preorder_self⟩
        rw [memberCopied, if_neg ho]
        exact List.mem_singleton_self m
      | @inner o _ _ ho hok hm =>
        refine hmem o ho ?_
        rw [memberCopied, if_pos hok]
        exact exists_objectCopied (.inr hm)
    next => exact ⟨n, List.mem_singleton_self n, hin⟩

end Tree

/-! ### The pieces of props -/

namespace Piece

/-- The pieces of an object type. -/
def ofObject (src : Text) (t : Tree) : List Piece :=
  if t.hasComment then [ofTree t]
  else braced (Separator.ofTree t) (Literal.isPadded src t) t.properChildren

/-- The pieces of a member of an intersection. -/
def ofMember (src : Text) (t : Tree) : List Piece :=
  if t.kind = .objectType then ofObject src t else [ofTree t]

/-- The pieces of a props type. -/
def ofProps (src : Text) (t : Tree) : List Piece :=
  if t.kind = .objectType then ofObject src t
  else if t.kind = .intersectionType ∧ t.containsComment = false then
    joined .ampersand (t.flatten.map (ofMember src))
  else [ofTree t]

variable {src : Text} {t : Tree} {props : PropsType}

theorem spans_ofObject (src : Text) (t : Tree) :
    spans (ofObject src t) = t.objectCopied.map fun c => ⟨c.start, c.stop⟩ := by
  rw [ofObject, Tree.objectCopied]
  split
  · rfl
  · exact spans_braced _ _ _

theorem spans_ofMember (src : Text) (t : Tree) :
    spans (ofMember src t) = t.memberCopied.map fun c => ⟨c.start, c.stop⟩ := by
  rw [ofMember, Tree.memberCopied]
  split
  · exact spans_ofObject src t
  · rfl

theorem spans_ofProps (src : Text) (t : Tree) :
    spans (ofProps src t) = t.copied.map fun c => ⟨c.start, c.stop⟩ := by
  rw [ofProps, Tree.copied]
  split
  · exact spans_ofObject src t
  · split
    · rw [spans_joined, List.flatMap_map, List.map_flatMap]
      simp only [spans_ofMember]
    · rfl

theorem separated_ofObject (src : Text) (t : Tree) : Separated (ofObject src t) := by
  rw [ofObject]
  split
  · exact separated_singleton _
  · exact separated_braced _ _ _

theorem separated_ofMember (src : Text) (t : Tree) : Separated (ofMember src t) := by
  rw [ofMember]
  split
  · exact separated_ofObject src t
  · exact separated_singleton _

theorem separated_ofProps (src : Text) (t : Tree) : Separated (ofProps src t) := by
  rw [ofProps]
  split
  · exact separated_ofObject src t
  · split
    · apply separated_joined
      intro b hb
      obtain ⟨c, -, rfl⟩ := List.mem_map.1 hb
      exact separated_ofMember src c
    · exact separated_singleton _

theorem render_ofObject (h : PropsType.ofObject src t = .ok props) :
    props.render = textAll src (ofObject src t) := by
  rw [ofObject]
  cases hc : t.hasComment with
  | true =>
    rw [PropsType.ofObject_of_comment hc] at h
    cases h
    simp [PropsType.render]
  | false =>
    rw [PropsType.ofObject_of_no_comment hc] at h
    obtain ⟨members, hm, rfl⟩ := map_eq_ok_iff.1 h
    have htexts : members.map Member.text = t.properChildren.map (Tree.text src) :=
      map_eq_of_mapM_eq_ok (fun c _ m hcm => Member.text_of_ofTree hcm) hm
    exact (textAll_braced (l := ⟨members, Separator.ofTree t, Literal.isPadded src t⟩) htexts).symm

theorem render_ofMember (h : PropsType.ofMember src t = .ok props) :
    props.render = textAll src (ofMember src t) := by
  unfold PropsType.ofMember at h
  rw [ofMember]
  split at h
  next hk =>
    rw [if_pos hk]
    exact render_ofObject h
  next hk =>
    cases h
    rw [if_neg hk]
    simp [PropsType.render]

/-- Props are written as their pieces one after the other. -/
theorem render_ofProps (h : PropsType.ofTree src t = .ok props) :
    props.render = textAll src (ofProps src t) := by
  rw [ofProps]
  rcases t.kind.props_cases with hk | hk | hk | hk
  · rw [PropsType.ofTree_of_object hk] at h
    rw [if_pos hk]
    exact render_ofObject h
  · rw [if_neg (by rw [hk]; decide)]
    cases hc : t.containsComment with
    | true =>
      rw [PropsType.ofTree_of_comment hk hc] at h
      cases h
      simp [PropsType.render]
    | false =>
      rw [PropsType.ofTree_of_no_comment hk hc] at h
      obtain ⟨members, hm, rfl⟩ := map_eq_ok_iff.1 h
      have htexts : members.map PropsType.render =
          (t.flatten.map (ofMember src)).map (textAll src) := by
        rw [List.map_map]
        exact map_eq_of_mapM_eq_ok (fun c _ m hcm => render_ofMember hcm) hm
      rw [if_pos ⟨hk, rfl⟩, textAll_joined, ← htexts, PropsType.render, PropsType.renderAll_eq_map]
      rfl
  · rw [PropsType.ofTree_of_reference hk] at h
    cases h
    have hobject : t.kind ≠ .objectType := fun hk' => by rw [hk'] at hk; cases hk
    have hinter : t.kind ≠ .intersectionType := fun hk' => by rw [hk'] at hk; cases hk
    rw [if_neg hobject, if_neg fun hi => hinter hi.1]
    simp [PropsType.render]
  · rw [PropsType.ofTree_of_not_propsShape hk] at h
    cases h

end Piece

/-! ### Nothing is lost, written twice or moved -/

/-- A node that is not empty lies in one of several disjoint ranges at most. -/
theorem existsUnique_holds {ss : List Span} {s : Span} {m : Tree}
    (hd : ss.Pairwise fun a b => a.stop ≤ b.start) (hs : s ∈ ss) (hm : s.Holds m)
    (hne : m.start < m.stop) : ∃! i : Nat, ∃ r, ss[i]? = some r ∧ r.Holds m := by
  have hapart : ∀ (i j : Nat) (a b : Span), ss[i]? = some a → ss[j]? = some b → a.Holds m →
      b.Holds m → ¬ i < j := by
    intro i j a b ha hb hma hmb hij
    obtain ⟨hi, rfl⟩ := List.getElem?_eq_some_iff.1 ha
    obtain ⟨hj, rfl⟩ := List.getElem?_eq_some_iff.1 hb
    have hle := List.pairwise_iff_getElem.1 hd i j hi hj hij
    have := hma.2
    have := hmb.1
    omega
  obtain ⟨i, hi⟩ := List.mem_iff_getElem?.1 hs
  refine ⟨i, ⟨s, hi, hm⟩, ?_⟩
  rintro j ⟨r, hj, hr⟩
  have h₁ := hapart i j s r hi hj hm hr
  have h₂ := hapart j i r s hj hi hr hm
  omega

open Piece in
/-- **Props are written without losing, doubling or moving anything.**  Their text is put together from
disjoint ranges of the type, copied in the order of the source, with braces, blanks, separators and
ampersands around and between them.  Whatever is retained of the type lies in exactly one of the ranges:
its members and its comments at any depth. -/
theorem render_copies {src : Text} {n : Tree} {props : PropsType} (hs : n.WellSpaced)
    (h : PropsType.ofTree src n = .ok props) :
    ∃ ps : List Piece, props.render = textAll src ps ∧ Separated ps ∧
      ((spans ps).Pairwise fun a b => a.stop ≤ b.start) ∧
      (∀ s ∈ spans ps, n.start ≤ s.start ∧ s.start ≤ s.stop ∧ s.stop ≤ n.stop) ∧
      ∀ m, n.Retains m → m.start < m.stop → ∃! i : Nat, ∃ s, (spans ps)[i]? = some s ∧ s.Holds m := by
  have hcopied := hs.copied
  have hdisjoint : (spans (ofProps src n)).Pairwise fun a b => a.stop ≤ b.start := by
    rw [spans_ofProps, List.pairwise_map]
    exact hcopied.pairwise
  refine ⟨ofProps src n, render_ofProps h, separated_ofProps src n, hdisjoint, ?_, ?_⟩
  · intro s hmem
    rw [spans_ofProps] at hmem
    obtain ⟨c, hc, rfl⟩ := List.mem_map.1 hmem
    exact hcopied.bounds c hc
  · intro m hm hne
    obtain ⟨c, hc, hmc⟩ := hm.exists_copied
    have hbounds := (hs.of_mem (Tree.mem_preorder_of_mem_copied hc)).bounds hmc
    have hspan : (⟨c.start, c.stop⟩ : Span) ∈ spans (ofProps src n) := by
      rw [spans_ofProps]
      exact List.mem_map.2 ⟨c, hc, rfl⟩
    exact existsUnique_holds hdisjoint hspan ⟨hbounds.1, hbounds.2.2⟩ hne

open Concrete in
/-- `{a: /* c */ A,b: B}`, an object type with a comment inside a member. -/
def annotatedMember : Concrete :=
  branch .objectType none [token "\x7b",
    branch .propertySignature none [gap "a: ".toList, leaf .comment none "/* c */", gap " A".toList],
    token ",", branch .propertySignature none [gap "b: B".toList], token "\x7d"]

open Piece in
/-- The comment of `annotatedMember` is written as part of its member, although the type is laid out
anew. -/
theorem annotatedMember_copies :
    annotatedMember.tree.WellSpaced ∧ ∃ (props : PropsType) (ps : List Piece),
      PropsType.ofTree annotatedMember.text annotatedMember.tree = .ok props ∧
      props.render = "\x7ba: /* c */ A, b: B\x7d".toList ∧
      props.render = textAll annotatedMember.text ps ∧ Separated ps ∧
      ((spans ps).Pairwise fun a b => a.stop ≤ b.start) ∧
      ∃ comment, annotatedMember.tree.Retains comment ∧
        comment.text annotatedMember.text = "/* c */".toList ∧
        ∃! i : Nat, ∃ s, (spans ps)[i]? = some s ∧ s.Holds comment := by
  have hs : annotatedMember.tree.WellSpaced := by decide
  obtain ⟨props, hprops, hrender⟩ : ∃ props,
      PropsType.ofTree annotatedMember.text annotatedMember.tree = .ok props ∧
      props.render = "\x7ba: /* c */ A, b: B\x7d".toList := ⟨_, rfl, rfl⟩
  obtain ⟨ps, htext, hseparated, hdisjoint, -, hretained⟩ := render_copies hs hprops
  refine ⟨hs, props, ps, hprops, hrender, htext, hseparated, hdisjoint, ?_⟩
  -- the comment is the first node below the first member
  obtain ⟨member, comment, hmember, hmnamed, hcomment, hcnamed, hkind, htext, hne⟩ :
      ∃ member comment : Tree, annotatedMember.tree.children[1]? = some member ∧
        member.label.named = true ∧ member.children[0]? = some comment ∧
        comment.label.named = true ∧ comment.kind.isComment = true ∧
        comment.text annotatedMember.text = "/* c */".toList ∧ comment.start < comment.stop :=
    ⟨_, _, rfl, rfl, rfl, rfl, rfl, rfl, by decide⟩
  have hreaches : annotatedMember.tree.Reaches comment :=
    .step (List.mem_of_getElem? hmember) hmnamed (.child (List.mem_of_getElem? hcomment) hcnamed)
  have hretains : annotatedMember.tree.Retains comment := .comment hreaches hkind
  exact ⟨comment, hretains, htext, hretained comment hretains hne⟩

end PlainComponents
