import PlainComponents.Proofs.Conversion.PropsNote
import PlainComponents.Proofs.Conversion.Refinement
import PlainComponents.Proofs.Text.TypeSigns

/-!
# Conversions make progress

A converted source can be longer than it was, since props are laid out anew.  But it has fewer colons and
opening angle brackets: the annotation that goes has a colon, and in front of its props a bracket, while
the parameter gets back one colon and the props, without any sign doubled.

* `typeSigns_render_le`: writing props down gives no sign that their source does not have;
* `added_lt_removed`: the edits of one component take more signs than they bring;
* `transform_shrinks`: so does the conversion of a source.  It follows that converting over and over comes
  to an end, whatever trees a parser gives for the texts in between.
-/

namespace PlainComponents

open Edit Text

/-! ### Tokens that spell their kind -/

namespace Tree

/-- A token of kind `k`, which has nothing below it. -/
def isSign (k : Kind) (t : Tree) : Bool :=
  t.isToken k && t.children.isEmpty

/-- What a parser promises of the tokens around types. -/
structure Punctuated (src : Text) (t : Tree) : Prop where
  spaced : t.WellSpaced
  boundaries : t.OnBoundaries src
  declarators : ∀ n ∈ t.preorder, n.kind = .variableDeclarator →
    n.Precedes .name .type ∧ n.Precedes .type .value
  /-- The text of a token is its kind. -/
  tokens : ∀ n ∈ t.preorder, n.label.named = false → n.children.isEmpty →
    n.text src = n.kind.name.toList
  /-- An annotation has a colon before its type. -/
  annotations : ∀ n ∈ t.preorder, n.kind = .variableDeclarator → (n.field? .type).all fun a =>
    (a.children.takeWhile fun c => !c.isProper).any (isSign (.other ":"))
  /-- Type arguments start with an angle bracket. -/
  arguments : ∀ n ∈ t.preorder, n.plays .typeArguments →
    n.children.head?.any (isSign (.other "<"))

variable {src : Text} {t n : Tree}

theorem Punctuated.of_mem (h : t.Punctuated src) (hn : n ∈ t.preorder) : n.Punctuated src where
  spaced := h.spaced.of_mem hn
  boundaries := h.boundaries.of_mem hn
  declarators m hm := h.declarators m (mem_preorder_trans hm hn)
  tokens m hm := h.tokens m (mem_preorder_trans hm hn)
  annotations m hm := h.annotations m (mem_preorder_trans hm hn)
  arguments m hm := h.arguments m (mem_preorder_trans hm hn)

theorem Punctuated.text_of_isSign {k : Kind} (h : t.Punctuated src) (hn : n ∈ t.preorder)
    (hk : n.isSign k = true) : n.text src = k.name.toList := by
  simp only [isSign, isToken, Bool.and_eq_true, Bool.not_eq_true', decide_eq_true_eq] at hk
  rw [h.tokens n hn hk.1.1 hk.2, hk.1.2]

/-- A sign that stands in `t` before `c`. -/
structure Introduces (src : Text) (sign c t : Tree) : Prop where
  mem : sign ∈ t.preorder
  signs : (sign.text src).typeSigns = 1
  start_le : t.start ≤ sign.start
  le : sign.start ≤ sign.stop
  stop_le : sign.stop ≤ c.start

/-- A sign among the children before the first child proper introduces that child. -/
theorem Punctuated.exists_introduces {k : Kind} {c : Tree} (h : t.Punctuated src)
    (hfirst : t.firstProper? = some c) (hk : typeSigns k.name.toList = 1)
    (hany : (t.children.takeWhile fun c => !c.isProper).any (isSign k) = true) :
    ∃ sign, Introduces src sign c t := by
  obtain ⟨hc, before, post, hcs, hbefore⟩ := List.find?_eq_some_iff_append.1 hfirst
  rw [hcs, List.takeWhile_append_of_pos (by simpa using hbefore),
    List.takeWhile_cons_of_neg (by simp [hc]), List.append_nil] at hany
  obtain ⟨sign, hmem, hsign⟩ := List.any_eq_true.1 hany
  obtain ⟨pre, mid, rfl⟩ := List.append_of_mem hmem
  have hin : sign ∈ t.preorder := child_mem_preorder (by simp [hcs])
  have hspaced := h.spaced.children
  rw [hcs] at hspaced
  obtain ⟨hpre, hle, hmid⟩ := hspaced.split.1.split
  refine ⟨sign, hin, ?_, hpre.le, hle, hmid.le⟩
  rw [h.text_of_isSign hin hsign]
  exact hk

/-- Trees that stand one after the other have no more signs than the text around them. -/
theorem sum_typeSigns_le {pos stop : Nat} {cs : List Tree} (h : Spaced pos cs stop)
    (hb : ∀ c ∈ cs, src.isBoundary c.start ∧ src.isBoundary c.stop) (hpos : src.isBoundary pos)
    (hstop : src.isBoundary stop) :
    (cs.map fun c => (c.text src).typeSigns).sum ≤ (src.slice pos stop).typeSigns := by
  induction cs generalizing pos with
  | nil => exact Nat.zero_le _
  | cons c cs ih =>
    obtain ⟨h₁, h₂, h₃⟩ := h
    obtain ⟨bstart, bstop⟩ := hb c List.mem_cons_self
    have hrest := ih h₃ (fun d hd => hb d (List.mem_cons_of_mem _ hd)) bstop
    rw [← slice_append_slice hpos bstart hstop h₁ (Nat.le_trans h₂ h₃.le),
      ← slice_append_slice bstart bstop hstop h₂ h₃.le, typeSigns_append, typeSigns_append,
      List.map_cons, List.sum_cons]
    show (src.slice c.start c.stop).typeSigns + _ ≤ _
    omega

end Tree

open PlainComponents.Tree

/-! ### Signs of props -/

section Props

variable {src : Text} {t : Tree}

theorem typeSigns_literal (l : Literal) :
    l.render.typeSigns = (l.members.map fun m => m.text.typeSigns).sum := by
  have hseparator : l.separator.text.typeSigns = 0 := by
    cases l.separator <;> decide
  unfold Literal.render
  split
  next hempty =>
    rw [List.isEmpty_iff.1 hempty]
    decide
  next =>
    have hpad : (if l.padded then [' '] else [] : Text).typeSigns = 0 := by
      split <;> decide
    have hopen : typeSigns ['\x7b'] = 0 := by decide
    have hclose : typeSigns ['\x7d'] = 0 := by decide
    simp only [typeSigns_append, hpad, hopen, hclose, typeSigns_joinWith hseparator, List.map_map,
      Nat.zero_add, Nat.add_zero]
    rfl

theorem typeSigns_ofObject_le {props : PropsType} (hs : t.WellSpaced) (hb : t.OnBoundaries src)
    (h : PropsType.ofObject src t = .ok props) :
    props.render.typeSigns ≤ (t.text src).typeSigns := by
  cases hc : t.hasComment with
  | true =>
    rw [PropsType.ofObject_of_comment hc] at h
    cases h
    exact Nat.le_refl _
  | false =>
    rw [PropsType.ofObject_of_no_comment hc] at h
    obtain ⟨members, hm, rfl⟩ := map_eq_ok_iff.1 h
    have htexts : members.map (fun m => m.text.typeSigns) =
        t.properChildren.map fun c => (c.text src).typeSigns :=
      map_eq_of_mapM_eq_ok (fun c _ m hcm => by rw [Member.text_of_ofTree hcm]) hm
    have hspaced : Spaced t.start t.properChildren t.stop :=
      hs.children.sublist List.filter_sublist
    have hself := hb t t.mem_preorder_self
    rw [PropsType.render, typeSigns_literal, htexts]
    apply sum_typeSigns_le hspaced _ hself.1 hself.2
    intro c hc
    exact hb c (child_mem_preorder (List.mem_filter.1 hc).1)

theorem typeSigns_ofMember_le {props : PropsType} (hs : t.WellSpaced) (hb : t.OnBoundaries src)
    (h : PropsType.ofMember src t = .ok props) :
    props.render.typeSigns ≤ (t.text src).typeSigns := by
  unfold PropsType.ofMember at h
  split at h
  · exact typeSigns_ofObject_le hs hb h
  · cases h
    exact Nat.le_refl _

/-- Props are written down without a sign that their source does not have. -/
theorem typeSigns_render_le {props : PropsType} (hs : t.WellSpaced) (hb : t.OnBoundaries src)
    (h : PropsType.ofTree src t = .ok props) :
    props.render.typeSigns ≤ (t.text src).typeSigns := by
  rcases t.kind.props_cases with hk | hk | hk | hk
  · rw [PropsType.ofTree_of_object hk] at h
    exact typeSigns_ofObject_le hs hb h
  · cases hc : t.containsComment with
    | true =>
      rw [PropsType.ofTree_of_comment hk hc] at h
      cases h
      exact Nat.le_refl _
    | false =>
      rw [PropsType.ofTree_of_no_comment hk hc] at h
      obtain ⟨members, hm, rfl⟩ := map_eq_ok_iff.1 h
      have hself := hb t t.mem_preorder_self
      have hin : ∀ c ∈ t.flatten, c ∈ t.preorder := fun c hc => mem_preorder_of_mem_flatten hc
      -- member by member, and the members stand one after the other in the type
      have hmembers : (members.map fun m => m.render.typeSigns).sum ≤
          (t.flatten.map fun c => (c.text src).typeSigns).sum := by
        have hall := forall₂_of_mapM_eq_ok hm
        clear hm h
        generalize t.flatten = cs at hall hin
        induction hall with
        | nil => exact Nat.le_refl _
        | @cons c m cs ms hcm _ ih =>
          have hmem := hin c List.mem_cons_self
          have hone := typeSigns_ofMember_le (hs.of_mem hmem) (hb.of_mem hmem) hcm
          have hrest := ih fun d hd => hin d (List.mem_cons_of_mem _ hd)
          simp only [List.map_cons, List.sum_cons]
          omega
      have htotal := sum_typeSigns_le hs.flatten (fun c hc => hb c (hin c hc)) hself.1 hself.2
      rw [PropsType.render, typeSigns_joinWith (by decide), PropsType.renderAll_eq_map, List.map_map]
      exact Nat.le_trans hmembers htotal
  · rw [PropsType.ofTree_of_reference hk] at h
    cases h
    exact Nat.le_refl _
  · rw [PropsType.ofTree_of_not_propsShape hk] at h
    cases h

end Props

/-! ### Signs of a component -/

namespace Declaration

variable {src : Text} {t : Tree} {d : Declaration}

theorem typeSigns_ascription (props : PropsType) :
    (Parameter.ascription props).typeSigns = 1 + props.render.typeSigns := by
  rw [Parameter.ascription, typeSigns_append]
  rfl

/-- The edit at the first parameter brings one colon and the props beside what stood there. -/
theorem typeSigns_annotateFirst {function : Tree} {props : PropsType} {p : Parameter} {e : Edit}
    (h : Parameter.annotateFirst src props function = .ok (some (p, e))) :
    e.text.typeSigns ≤ (src.slice e.start e.stop).typeSigns + 1 + props.render.typeSigns := by
  rcases Parameter.annotateFirst_eq_ok_some h with
    ⟨bare, -, rfl⟩ | ⟨-, list, first, pattern, -, -, -, -, rfl⟩
  · have hopen : typeSigns ['('] = 0 := by decide
    have hclose : typeSigns [')'] = 0 := by decide
    simp only [Parameter.parenthesize, typeSigns_append, typeSigns_ascription, hopen, hclose]
    show 0 + (src.slice bare.start bare.stop).typeSigns + _ + 0 ≤ _
    omega
  · rw [Parameter.text_ascribe, typeSigns_ascription]
    omega

/-- The edit at the first parameter does not run backwards. -/
theorem start_le_stop_annotateFirst {function : Tree} {props : PropsType} {p : Parameter} {e : Edit}
    (hs : function.WellSpaced) (h : Parameter.annotateFirst src props function = .ok (some (p, e))) :
    e.start ≤ e.stop := by
  rcases Parameter.annotateFirst_eq_ok_some h with
    ⟨bare, hbare, rfl⟩ | ⟨-, list, first, pattern, hlist, hfirst, -, -, rfl⟩
  · exact (hs.bounds (child_mem_preorder (mem_of_field? hbare))).2.1
  · have hlist := child_mem_preorder (mem_of_field? hlist)
    have hfirst := mem_preorder_trans (child_mem_preorder (mem_of_firstProper? hfirst)) hlist
    unfold Parameter.ascribe
    split
    next type htype =>
      exact (hs.bounds (mem_preorder_trans (child_mem_preorder (mem_of_field? htype)) hfirst)).2.1
    next => exact Nat.le_refl _

theorem name_stop_le {type leading : Tree} (ht : t.Punctuated src)
    (hd : Declared src t d type leading) : d.name.stop ≤ d.ascription.start :=
  (ht.declarators t t.mem_preorder_self hd.kind).1.stop_le ht.spaced hd.name hd.ascription

/-- A colon introduces the type of the annotation. -/
theorem exists_colon {type leading : Tree} (ht : t.Punctuated src)
    (hd : Declared src t d type leading) : ∃ colon, Introduces src colon type d.ascription := by
  have hcolon := ht.annotations t t.mem_preorder_self hd.kind
  rw [hd.ascription, Option.all_some] at hcolon
  have hasc := ht.of_mem (child_mem_preorder (mem_of_field? hd.ascription))
  exact hasc.exists_introduces hd.first (by decide) hcolon

/-- A bracket introduces the props. -/
theorem exists_bracket {type leading p : Tree} (ht : t.Punctuated src)
    (hd : Declared src t d type leading) (hp : d.props = some p) :
    ∃ arguments bracket, arguments ∈ type.preorder ∧ p ∈ arguments.children ∧
      Introduces src bracket p arguments := by
  obtain ⟨-, _, q, -, -, hq, hprops⟩ | ⟨-, -, hprops⟩ := componentType?_eq_some hd.component
  · obtain rfl : p = q := Option.some.inj (hp.symm.trans hprops)
    obtain ⟨arguments, hargs, hfirst, -⟩ := argument?_eq_some hq
    have hin : arguments ∈ type.preorder := mem_preorder_trans
      (child_mem_preorder (mem_of_field? hargs)) (mem_preorder_of_leading? hd.leads)
    have hmem : arguments ∈ t.preorder := mem_preorder_trans hin (mem_preorder_trans
      (child_mem_preorder (mem_of_firstProper? hd.first))
      (child_mem_preorder (mem_of_field? hd.ascription)))
    -- the first child is a token, so it stands before the first child proper
    have hhead := ht.arguments arguments hmem (plays_iff.2 (field_of_field? hargs))
    have hsign : (arguments.children.takeWhile fun c => !c.isProper).any
        (isSign (.other "<")) = true := by
      cases hcs : arguments.children with
      | nil => simp [hcs] at hhead
      | cons c cs =>
        have hc : c.isSign (.other "<") = true := by simpa [hcs] using hhead
        have hproper : c.isProper = false := by
          simp only [isSign, isToken, Bool.and_eq_true, Bool.not_eq_true'] at hc
          simp [isProper, hc.1.1]
        simp [hproper, hc]
    obtain ⟨bracket, hbracket⟩ := (ht.of_mem hmem).exists_introduces hfirst (by decide) hsign
    exact ⟨arguments, bracket, hin, mem_of_firstProper? hfirst, hbracket⟩
  · cases hp.symm.trans hprops

/-- What goes with the annotation of a component: a colon and, with props, a bracket before them. -/
theorem typeSigns_removal {type leading : Tree} (ht : t.Punctuated src)
    (hd : Declared src t d type leading) :
    0 < (src.slice d.name.stop d.ascription.stop).typeSigns ∧
    ∀ p, d.props = some p →
      1 + (p.text src).typeSigns < (src.slice d.name.stop d.ascription.stop).typeSigns := by
  have hb := ht.boundaries
  have hname : src.isBoundary d.name.stop :=
    (hb _ (child_mem_preorder (mem_of_field? hd.name))).2
  have hasc := child_mem_preorder (mem_of_field? hd.ascription)
  have hascs := ht.spaced.of_mem hasc
  have htype := child_mem_preorder (mem_of_firstProper? hd.first)
  have hle := name_stop_le ht hd
  obtain ⟨colon, hcolon⟩ := exists_colon ht hd
  have hcolonIn := hb _ (mem_preorder_trans hcolon.mem hasc)
  have hwidth := hcolon.le
  have hbefore := hcolon.start_le
  refine ⟨?_, ?_⟩
  · have hspaced : Spaced d.name.stop [colon] d.ascription.stop :=
      ⟨by omega, hwidth, (hascs.bounds hcolon.mem).2.2⟩
    have hsum := sum_typeSigns_le hspaced (by simpa using hcolonIn) hname (hb _ hasc).2
    simp only [List.map_cons, List.map_nil, List.sum_cons, List.sum_nil, hcolon.signs] at hsum
    omega
  · intro p hp
    obtain ⟨arguments, bracket, hargs, hpa, hbracket⟩ := exists_bracket ht hd hp
    have hargsIn := mem_preorder_trans hargs (mem_preorder_trans htype hasc)
    -- the colon, the bracket and the props follow one another
    have hspaced : Spaced d.name.stop [colon, bracket, p] d.ascription.stop := by
      have h₁ := hcolon.stop_le
      have h₂ := (hascs.of_mem htype).bounds hargs
      have h₃ := hbracket.start_le
      have h₄ := (hascs.of_mem (mem_preorder_trans hargs htype)).bounds (child_mem_preorder hpa)
      have h₅ := hascs.bounds (mem_preorder_trans hargs htype)
      exact ⟨by omega, hwidth, by omega, hbracket.le, hbracket.stop_le, h₄.2.1,
        Nat.le_trans h₄.2.2 h₅.2.2⟩
    have hsum := sum_typeSigns_le hspaced
      (by simpa using ⟨hcolonIn, hb _ (mem_preorder_trans hbracket.mem hargsIn),
        hb _ (mem_preorder_trans (child_mem_preorder hpa) hargsIn)⟩) hname (hb _ hasc).2
    simp only [List.map_cons, List.map_nil, List.sum_cons, List.sum_nil, hcolon.signs,
      hbracket.signs] at hsum
    omega

/-- The edits of a component take more signs than they bring, and none of them runs backwards. -/
theorem added_lt_removed {es : List Edit} (ht : t.Punctuated src)
    (hd : declaration? src t = some d) (h : d.edits src = .ok es) :
    added es < removed src es ∧ ∀ e ∈ es, e.start ≤ e.stop := by
  obtain ⟨type, leading, hdeclared⟩ := declaration?_eq_some_iff.1 hd
  obtain ⟨hcolon, hprops⟩ := typeSigns_removal ht hdeclared
  have hasc := child_mem_preorder (mem_of_field? hdeclared.ascription)
  have hremoval : added [d.removal] < removed src [d.removal] ∧
      ∀ e ∈ [d.removal], e.start ≤ e.stop := by
    have hforward := Nat.le_trans (name_stop_le ht hdeclared) (ht.spaced.of_mem hasc).le
    refine ⟨?_, by simpa [removal, deletion] using hforward⟩
    simpa [removal, deletion] using hcolon
  cases edits_eq_ok h with
  | bare _ he => exact he ▸ hremoval
  | unused _ _ _ _ he => exact he ▸ hremoval
  | @annotated p props f q e hp hrender hf ha he =>
    have hpIn := mem_preorder_trans (hdeclared.props_mem hp) hasc
    have hfIn := mem_preorder_of_mem_children (mem_of_field? hdeclared.value)
      (FunctionNode.mem_preorder_of_find? hf)
    have hwritten := typeSigns_render_le (ht.spaced.of_mem hpIn) (ht.boundaries.of_mem hpIn) hrender
    have hbrought := typeSigns_annotateFirst ha
    have htaken := hprops p hp
    subst he
    refine ⟨?_, ?_⟩
    · simp only [added_cons, added_nil, removed_cons, removed_nil, removal, deletion, typeSigns_nil]
      omega
    · intro x hx
      rcases List.mem_cons.1 hx with rfl | hx
      · exact start_le_stop_annotateFirst (ht.spaced.of_mem hfIn) ha
      · exact hremoval.2 x hx

end Declaration

/-! ### Signs of a source -/

section Rounds

variable {src out : Text} {tree : Tree}

/-- The edits of several components take at least one sign more for each of them. -/
theorem Judged.added_add_length_le {ds : List Declaration} {parts : List (List Edit)}
    (ht : tree.Punctuated src) (hds : ∀ d ∈ ds, d ∈ declarations src tree)
    (h : Judged src ds parts) :
    added parts.flatten + ds.length ≤ removed src parts.flatten ∧
      ∀ e ∈ parts.flatten, e.start ≤ e.stop := by
  unfold Judged at h
  induction h with
  | nil => simp
  | @cons d es ds parts hd _ ih =>
    obtain ⟨n, hn, hdn⟩ := mem_declarations.1 (hds d List.mem_cons_self)
    rw [Declaration.alone_eq_edits] at hd
    obtain ⟨hone, hforward⟩ := Declaration.added_lt_removed (ht.of_mem hn) hdn hd
    obtain ⟨hrest, hforwards⟩ := ih fun c hc => hds c (List.mem_cons_of_mem _ hc)
    simp only [List.flatten_cons, added_append, removed_append, List.length_cons, List.mem_append]
    refine ⟨by omega, ?_⟩
    rintro e (he | he)
    · exact hforward e he
    · exact hforwards e he

/-- A conversion takes at least one sign for every component. -/
theorem typeSigns_transform (ht : tree.Punctuated src) (h : transform src tree = .ok (some out)) :
    out.typeSigns + (declarations src tree).length ≤ src.typeSigns := by
  obtain ⟨parts, hparts, hedit⟩ := exists_judged_of_transform_eq_ok h
  obtain ⟨hle, hforward⟩ := hparts.added_add_length_le ht fun _ hd => hd
  have hbalance := typeSigns_edit (onBoundaries_judged ht.boundaries hparts) hforward hedit
  omega

theorem declarations_ne_nil_of_transform (h : transform src tree = .ok (some out)) :
    declarations src tree ≠ [] := by
  intro hnil
  rw [transform_of_no_declarations (hasError_of_transform_eq_ok h) hnil] at h
  cases h

/-- One round of conversion, with any tree that a parser may give for the text. -/
def Round (src out : Text) : Prop :=
  ∃ tree : Tree, tree.Punctuated src ∧ transform src tree = .ok (some out)

theorem Round.typeSigns_lt (h : Round src out) : out.typeSigns < src.typeSigns := by
  obtain ⟨tree, ht, h⟩ := h
  have hle := typeSigns_transform ht h
  have hpos := List.length_pos_of_ne_nil (declarations_ne_nil_of_transform h)
  omega

/-- There are no more rounds than signs to begin with. -/
theorem length_le_typeSigns {texts : List Text} (h : List.IsChain Round (src :: texts)) :
    texts.length ≤ src.typeSigns := by
  induction texts generalizing src with
  | nil => exact Nat.zero_le _
  | cons t texts ih =>
    obtain ⟨hround, hrest⟩ := List.isChain_cons_cons.1 h
    have hlt := hround.typeSigns_lt
    have hle := ih hrest
    rw [List.length_cons]
    omega

/-- Converts a text with the tree that a parser gives for it, if that gives another text. -/
def reconvert (parse : Text → Tree) (src : Text) : Text :=
  match transform src (parse src) with
  | .ok (some out) => out
  | _ => src

/-- Converting over and over comes to a text that is not converted any more. -/
theorem exists_iterate_reconvert {parse : Text → Tree}
    (hparse : ∀ t, (parse t).label.hasError = false → (parse t).Punctuated t) (src : Text) :
    ∃ n ≤ src.typeSigns, ∀ out, transform ((reconvert parse)^[n] src)
      (parse ((reconvert parse)^[n] src)) ≠ .ok (some out) := by
  induction hm : src.typeSigns using Nat.strongRecOn generalizing src with
  | ind m ih =>
    subst hm
    by_cases hdone : ∀ out, transform src (parse src) ≠ .ok (some out)
    · exact ⟨0, Nat.zero_le _, hdone⟩
    · push Not at hdone
      obtain ⟨out, hout⟩ := hdone
      have hround : Round src out := ⟨parse src, hparse src (hasError_of_transform_eq_ok hout), hout⟩
      have hlt := hround.typeSigns_lt
      obtain ⟨n, hn, hlast⟩ := ih out.typeSigns hlt out rfl
      have hstep : reconvert parse src = out := by
        unfold reconvert
        rw [hout]
      refine ⟨n + 1, by omega, ?_⟩
      rw [Function.iterate_succ_apply, hstep]
      exact hlast

/-- **A converted source has changed, and converting comes to an end.**  It has fewer colons and opening
angle brackets than before.  So there are at most as many rounds of conversion as there are such signs in
the source, whatever trees are given for the texts in between; and with any parser, converting over and
over ends at a text that is not converted any more. -/
theorem transform_shrinks (ht : tree.Punctuated src) (h : transform src tree = .ok (some out)) :
    out.typeSigns < src.typeSigns ∧ out ≠ src ∧
    (∀ texts, List.IsChain Round (src :: texts) → texts.length ≤ src.typeSigns) ∧
    (∀ parse : Text → Tree, (∀ t, (parse t).label.hasError = false → (parse t).Punctuated t) →
      ∃ n ≤ src.typeSigns, ∀ last, transform ((reconvert parse)^[n] src)
        (parse ((reconvert parse)^[n] src)) ≠ .ok (some last)) := by
  have hlt := Round.typeSigns_lt ⟨tree, ht, h⟩
  refine ⟨hlt, ?_, fun texts => length_le_typeSigns, fun parse hparse => ?_⟩
  · rintro rfl
    exact absurd hlt (Nat.lt_irrefl _)
  · exact exists_iterate_reconvert hparse src

/-- A parser that knows one text: for any other it gives a tree with a fault. -/
def nestedParser (t : Text) : Tree :=
  if t = nested.text then nested.tree else .node { nested.tree.label with hasError := true } []

/-- Converting `nested` takes signs away, and with `nestedParser` the rounds come to an end. -/
theorem nested_shrinks :
    nested.tree.Punctuated nested.text ∧
    transform nested.text nested.tree = .ok (some nestedConverted) ∧
    nestedConverted.typeSigns < nested.text.typeSigns ∧ nestedConverted ≠ nested.text ∧
    (∀ texts, List.IsChain Round (nested.text :: texts) → texts.length ≤ nested.text.typeSigns) ∧
    (∀ t, (nestedParser t).label.hasError = false → (nestedParser t).Punctuated t) ∧
    ∃ n ≤ nested.text.typeSigns, ∀ last, transform ((reconvert nestedParser)^[n] nested.text)
      (nestedParser ((reconvert nestedParser)^[n] nested.text)) ≠ .ok (some last) := by
  have ht : nested.tree.Punctuated nested.text :=
    ⟨by decide, by decide, by decide, by decide, by decide, by decide⟩
  have hparse : ∀ t, (nestedParser t).label.hasError = false → (nestedParser t).Punctuated t := by
    intro t herror
    unfold nestedParser at herror ⊢
    split at herror
    next h =>
      rw [if_pos h, h]
      exact ht
    next => cases herror
  obtain ⟨hlt, hne, hrounds, hends⟩ := transform_shrinks ht transform_nested
  exact ⟨ht, transform_nested, hlt, hne, hrounds, hparse, hends nestedParser hparse⟩

end Rounds

end PlainComponents
