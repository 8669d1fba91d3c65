import PlainComponents.Proofs.Conversion.PropsNote
import PlainComponents.Proofs.Tree.Layout

/-!
# Written props are in normal form

Props are taken out of a source and written on one line.  Here the other way round: the text of a props
type, with the nodes that a parser makes of it (`PropsType.layout`), is taken out again.  What comes back
is `PropsType.normal`: the text does not show the separator of an object type with fewer than two members,
nor the padding of one without members, nor that a single type was meant as an intersection.  None of
these shows in the text, so it is written as before: `render_normal`.

Separators are read off the tokens and the padding off a byte of the text, so both sides are followed from
the place where the text stands (`Concrete.Placed`).  What a parser puts inside the nodes of members and
references is left open: a `Filling`.
-/

namespace PlainComponents

open Concrete

/-! ### The layout of props -/

/-- The kind of node for a member of an object type. -/
def MemberKind.kind : MemberKind → Kind
  | property => .propertySignature
  | method => .methodSignature
  | index => .indexSignature
  | call => .callSignature
  | construct => .constructSignature

theorem MemberKind.ofKind?_kind (k : MemberKind) : ofKind? k.kind = some k := by
  cases k <;> rfl

/-- The node is a comment or has one below it, reached through named nodes. -/
def Tree.bearsComment (t : Tree) : Bool :=
  t.label.named && (t.kind.isComment || t.containsComment)

/-- What is inside a node of some kind that spells some text: any parts that spell the text and hold no
comments. -/
structure Filling where
  parts : Kind → Text → List Concrete
  textAll_parts : ∀ kind text, textAll (parts kind text) = text
  no_comment : ∀ kind text pos, (treesAll pos (parts kind text)).any Tree.bearsComment = false

/-- Nothing but the text. -/
def Filling.bare : Filling where
  parts _ text := [gap text]
  textAll_parts := by simp
  no_comment _ _ _ := rfl

/-- The node of a member. -/
def Member.layout (f : Filling) (m : Member) : Concrete :=
  branch m.kind.kind none (f.parts m.kind.kind m.text)

/-- The blank inside a brace, if there is one. -/
def padding (padded : Bool) : List Concrete :=
  if padded then [space] else []

/-- The nodes of an object type: braces, members, and separators between members. -/
def Literal.layout (f : Filling) (l : Literal) : Concrete :=
  branch .objectType none <|
    if l.members.isEmpty then [token "\x7b", token "\x7d"]
    else token "\x7b" :: (padding l.padded ++
      joined [l.separator.token, space] (l.members.map (Member.layout f)) ++ padding l.padded ++
      [token "\x7d"])

namespace PropsType

mutual

/-- The nodes of a props type; an intersection is nested to the left, and one of a single member is that
member. -/
def layout (f : Filling) : PropsType → Concrete
  | reference t => branch .typeIdentifier none (f.parts .typeIdentifier t)
  | literal l => l.layout f
  | intersection ms => intersectAll (layoutAll f ms)

/-- The nodes of a list of props types. -/
def layoutAll (f : Filling) : List PropsType → List Concrete
  | [] => []
  | p :: ps => p.layout f :: layoutAll f ps

end

theorem layoutAll_eq_map (f : Filling) (ps : List PropsType) : layoutAll f ps = ps.map (layout f) := by
  induction ps with
  | nil => rfl
  | cons p ps ih => rw [layoutAll, ih, List.map_cons]

end PropsType

/-! ### The layout spells the text -/

theorem textAll_padding (padded : Bool) : textAll (padding padded) = if padded then [' '] else [] := by
  cases padded <;> rfl

theorem Member.text_layout (f : Filling) (m : Member) : (m.layout f).text = m.text :=
  f.textAll_parts _ _

theorem Literal.text_layout (f : Filling) (l : Literal) : (l.layout f).text = l.render := by
  have hmembers : (l.members.map (Member.layout f)).map text = l.members.map Member.text := by
    rw [List.map_map]
    exact List.map_congr_left fun m _ => m.text_layout f
  have hbody : textAll (joined [l.separator.token, space] (l.members.map (Member.layout f))) =
      Text.joinWith l.separator.text (l.members.map Member.text) := by
    rw [textAll_joined, Separator.textAll_token, hmembers]
  unfold layout render
  split
  · rfl
  · simp only [branch, text_node, textAll_cons, textAll_append, textAll_padding, hbody]
    simp [token]

namespace PropsType

mutual

theorem text_layout (f : Filling) : ∀ p : PropsType, (p.layout f).text = p.render
  | reference t => f.textAll_parts _ t
  | literal l => l.text_layout f
  | intersection ms => by rw [layout, text_intersectAll, text_layoutAll f ms, render]

theorem text_layoutAll (f : Filling) : ∀ ps : List PropsType, (layoutAll f ps).map text = renderAll ps
  | [] => rfl
  | p :: ps => by rw [layoutAll, List.map_cons, text_layout f p, text_layoutAll f ps, renderAll]

end

end PropsType

/-! ### Props as their text shows them -/

/-- The text is not empty and does not start with a blank. -/
def Text.Solid : Text → Prop
  | [] => False
  | c :: _ => c ∉ blanks

/-- The texts of all members are solid. -/
def Literal.Solid (l : Literal) : Prop :=
  ∀ m ∈ l.members, m.text.Solid

/-- The text of the literal shows its separator and its padding. -/
def Literal.Evident (l : Literal) : Prop :=
  2 ≤ l.members.length ∨ (l.members.length = 1 ∧ l.separator = .semicolon) ∨
    (l.members = [] ∧ l.separator = .semicolon ∧ l.padded = false)

/-- The literal as its text shows it. -/
def Literal.normal (l : Literal) : Literal where
  members := l.members
  separator := if 2 ≤ l.members.length then l.separator else .semicolon
  padded := !l.members.isEmpty && l.padded

namespace PropsType

/-- A literal or a reference, with solid texts. -/
def Simple : PropsType → Prop
  | reference t => t.Solid
  | literal l => l.Solid
  | intersection _ => False

/-- A literal, a reference or an intersection of these, with solid texts. -/
def Flat : PropsType → Prop
  | intersection ms => ms ≠ [] ∧ ∀ m ∈ ms, m.Simple
  | p => p.Simple

/-- The text shows all there is to the props type. -/
def Evident : PropsType → Prop
  | reference _ => True
  | literal l => l.Evident
  | intersection ms => ms.length ≠ 1 ∧ ∀ l, literal l ∈ ms → l.Evident

/-- A literal or a reference as its text shows it. -/
def memberNormal : PropsType → PropsType
  | literal l => literal l.normal
  | p => p

/-- A props type as its text shows it. -/
def normal : PropsType → PropsType
  | intersection [m] => m.memberNormal
  | intersection ms => intersection (ms.map memberNormal)
  | p => p.memberNormal

end PropsType

theorem Literal.render_normal (l : Literal) : l.normal.render = l.render := by
  obtain ⟨members, separator, padded⟩ := l
  match members with
  | [] => rfl
  | [m] => rfl
  | m :: n :: ms => simp [normal]

theorem Literal.normal_eq_self {l : Literal} (h : l.Evident) : l.normal = l := by
  obtain ⟨members, separator, padded⟩ := l
  have hne : 0 < members.length → members.isEmpty = false := fun hpos =>
    List.isEmpty_eq_false_iff.2 (List.length_pos_iff.1 hpos)
  rcases h with h | ⟨h, rfl⟩ | ⟨rfl, rfl, rfl⟩
  · have htwo : 2 ≤ members.length := h
    simp [normal, hne (by omega), htwo]
  · have hone : members.length = 1 := h
    simp [normal, hne (by omega)]
  · rfl

namespace PropsType

theorem render_memberNormal (p : PropsType) : p.memberNormal.render = p.render := by
  cases p with
  | literal l => exact l.render_normal
  | _ => rfl

/-- What the text does not show makes no difference to it. -/
theorem render_normal (p : PropsType) : p.normal.render = p.render := by
  match p with
  | reference t => rfl
  | literal l => exact l.render_normal
  | intersection [] => rfl
  | intersection [m] => exact m.render_memberNormal
  | intersection (m :: n :: ms) =>
    have hmembers : renderAll ((m :: n :: ms).map memberNormal) = renderAll (m :: n :: ms) := by
      rw [renderAll_eq_map, renderAll_eq_map, List.map_map]
      exact List.map_congr_left fun q _ => q.render_memberNormal
    show Text.joinWith _ (renderAll ((m :: n :: ms).map memberNormal)) = _
    rw [hmembers, render]

theorem normal_eq_self {p : PropsType} (h : p.Evident) : p.normal = p := by
  match p with
  | reference t => rfl
  | literal l => exact congrArg literal (Literal.normal_eq_self h)
  | intersection [] => rfl
  | intersection [m] => exact absurd rfl h.1
  | intersection (m :: n :: ms) =>
    have hmember : ∀ q ∈ m :: n :: ms, q.memberNormal = q := by
      intro q hq
      cases q with
      | literal l => exact congrArg literal (Literal.normal_eq_self (h.2 l hq))
      | _ => rfl
    show intersection ((m :: n :: ms).map memberNormal) = _
    rw [List.map_congr_left hmember, List.map_id']

end PropsType

/-! ### Nodes in their place -/

section Reading

variable {out : Text} {f : Filling} {us : List Tree} {u : Tree}

theorem exists_token_of_placed {s : String} (h : Placed out [token s] us) :
    ∃ u, us = [u] ∧ u.label.named = false ∧ u.kind = .other s := by
  obtain ⟨u, rfl, halike, -, -⟩ := h.node
  exact ⟨u, rfl, halike.named, halike.kind⟩

theorem eq_nil_of_placed_padding {padded : Bool} (h : Placed out (padding padded) us) : us = [] := by
  cases padded with
  | true => exact h.gap
  | false => exact h.nil

/-- Whether a blank follows a token is decided by what is written behind it. -/
theorem isBlankAt_of_placed {s : String} {ps : List Concrete} (h : Placed out (token s :: ps) us) :
    ∃ u rest after, us = u :: rest ∧
      Text.isBlankAt out u.stop = Text.isBlankAt (textAll ps ++ after) 0 := by
  obtain ⟨before, after, hout, rfl⟩ := h
  refine ⟨_, _, after, rfl, ?_⟩
  have hsplit : out = (before ++ s.toList) ++ (textAll ps ++ after) := by
    simpa [token] using hout
  have hstop : before.byteLength + (textAll [gap s.toList]).byteLength =
      (before ++ s.toList).byteLength := by
    simp
  rw [Tree.stop_node, hstop, hsplit, Text.isBlankAt_append]

/-- A node with a filling holds no comments. -/
theorem exists_filled_of_placed {kind : Kind} {field : Option Field} {text : Text}
    (h : Placed out [branch kind field (f.parts kind text)] us) :
    ∃ u, us = [u] ∧ u.label.named = true ∧ u.kind = kind ∧ u.text out = text ∧
      u.containsComment = false := by
  obtain ⟨u, rfl, halike, htext, before, after, hout, hchildren⟩ := h.node
  refine ⟨u, rfl, halike.named, halike.kind, htext.trans (f.textAll_parts _ _), ?_⟩
  rw [Tree.containsComment_eq, hchildren]
  exact f.no_comment _ _ _

/-! ### Members between braces -/

theorem MemberKind.isComment_kind (k : MemberKind) : k.kind.isComment = false := by
  cases k <;> rfl

theorem exists_member_of_placed {m : Member} (h : Placed out [m.layout f] us) :
    ∃ u, us = [u] ∧ u.label.named = true ∧ u.isProper = true ∧ u.bearsComment = false ∧
      Member.ofTree out u = .ok m := by
  obtain ⟨u, rfl, hnamed, hkind, htext, hcomment⟩ := exists_filled_of_placed h
  refine ⟨u, rfl, hnamed, ?_, ?_, ?_⟩
  · rw [Tree.isProper, hnamed, hkind, m.kind.isComment_kind]
    rfl
  · rw [Tree.bearsComment, hnamed, hkind, m.kind.isComment_kind, hcomment]
    rfl
  · rw [Member.ofTree, hkind, m.kind.ofKind?_kind, htext]

/-- What is to be read off the nodes of members with separators between them. -/
structure Listing (out : Text) (separator : Separator) (ms : List Member) (us : List Tree) :
    Prop where
  members : (us.filter Tree.isProper).mapM (Member.ofTree out) = .ok ms
  commas : us.any (Tree.isToken (.other ",")) = decide (separator = .comma ∧ 2 ≤ ms.length)
  no_comment : us.any Tree.bearsComment = false

theorem Separator.exists_token_of_placed {separator : Separator}
    (h : Placed out [separator.token, space] us) :
    ∃ u, us = [u] ∧ u.label.named = false ∧ u.isToken (.other ",") = decide (separator = .comma) := by
  obtain ⟨vs, ws, rfl, htoken, hspace⟩ := h.cons
  obtain rfl := hspace.gap
  cases separator with
  | comma =>
    obtain ⟨u, rfl, hnamed, hkind⟩ := PlainComponents.exists_token_of_placed htoken
    exact ⟨u, rfl, hnamed, by simp [Tree.isToken, hnamed, hkind]⟩
  | semicolon =>
    obtain ⟨u, rfl, hnamed, hkind⟩ := PlainComponents.exists_token_of_placed htoken
    exact ⟨u, rfl, hnamed, by simp [Tree.isToken, hnamed, hkind]⟩

theorem listing_of_placed {separator : Separator} {ms : List Member}
    (h : Placed out (joined [separator.token, space] (ms.map (Member.layout f))) us) :
    Listing out separator ms us := by
  induction ms generalizing us with
  | nil =>
    obtain rfl := h.nil
    exact ⟨rfl, by simp, rfl⟩
  | cons m ms ih =>
    cases ms with
    | nil =>
      obtain ⟨u, rfl, hnamed, hproper, hcomment, hmember⟩ := exists_member_of_placed h
      exact ⟨by simp [hproper, hmember], by simp [Tree.isToken, hnamed], by simp [hcomment]⟩
    | cons n ms =>
      obtain ⟨vs, ws, rfl, hfirst, hrest⟩ := Placed.cons h
      obtain ⟨xs, ys, rfl, hbetween, hothers⟩ := Placed.append hrest
      obtain ⟨u, rfl, hnamed, hproper, hcomment, hmember⟩ := exists_member_of_placed hfirst
      obtain ⟨t, rfl, htoken, hcomma⟩ := Separator.exists_token_of_placed hbetween
      obtain ⟨hmembers, hcommas, hcomments⟩ := ih hothers
      have hskipped : t.isProper = false := by simp [Tree.isProper, htoken]
      refine ⟨?_, ?_, ?_⟩
      · simp only [List.singleton_append, List.filter_cons, hproper, hskipped, if_true,
          Bool.false_eq_true, if_false, List.mapM_cons, hmember, hmembers]
        rfl
      · have hmember : u.isToken (.other ",") = false := by simp [Tree.isToken, hnamed]
        simp only [List.singleton_append, List.any_cons, hmember, hcomma, hcommas]
        cases separator <;> simp
      · have hplain : t.bearsComment = false := by simp [Tree.bearsComment, htoken]
        simp [hcomment, hplain, hcomments]

/-! ### Object types -/

theorem hasComment_of_no_comment (h : u.children.any Tree.bearsComment = false) :
    u.hasComment = false := by
  rw [List.any_eq_false] at h
  rw [Tree.hasComment, List.any_eq_false]
  intro c hc hcomment
  apply h c hc
  simp only [Tree.isComment, Bool.and_eq_true] at hcomment
  simp [Tree.bearsComment, hcomment.1, hcomment.2]

theorem Separator.ofTree_eq (t : Tree) :
    Separator.ofTree t = if t.children.any (Tree.isToken (.other ",")) then .comma else .semicolon := by
  have htoken : (t.token? (.other ",")).isSome = t.children.any (Tree.isToken (.other ",")) :=
    Bool.eq_iff_iff.2 (List.find?_isSome.trans List.any_eq_true.symm)
  rw [Separator.ofTree, ← htoken]
  cases t.token? (.other ",") <;> rfl

/-- What starts with a solid text does not start with a blank. -/
theorem Text.Solid.isBlankAt {t : Text} (h : t.Solid) (rest : Text) :
    Text.isBlankAt (t ++ rest) 0 = false := by
  cases t with
  | nil => exact h.elim
  | cons c t => exact Text.isBlankAt_cons h (t ++ rest)

/-- The text behind the first brace of a literal starts with a blank exactly if the literal is padded. -/
theorem isBlankAt_layout {l : Literal} (hl : l.Solid) (hne : l.members.isEmpty = false) (after : Text) :
    Text.isBlankAt (textAll (padding l.padded ++
      joined [l.separator.token, space] (l.members.map (Member.layout f)) ++ padding l.padded ++
      [token "\x7d"]) ++ after) 0 = l.padded := by
  cases hpadded : l.padded with
  | true => simp [padding, space, Text.isBlankAt, Text.encode, Text.isBlankByte, String.utf8EncodeChar]
  | false =>
    cases hms : l.members with
    | nil => simp [hms] at hne
    | cons m ms =>
      have hsolid : (m.layout f).text.Solid := by
        rw [m.text_layout]
        exact hl m (by simp [hms])
      cases ms with
      | nil => simpa [padding, joined] using hsolid.isBlankAt _
      | cons n ms => simpa [padding, joined] using hsolid.isBlankAt _

/-- The nodes of a literal: two braces and what is between them. -/
theorem exists_listing_of_placed {l : Literal} (hl : l.Solid) (h : Placed out [l.layout f] us) :
    ∃ u o vs c, us = [u] ∧ u.label.named = true ∧ u.kind = .objectType ∧
      u.children = o :: (vs ++ [c]) ∧ (o.label.named = false ∧ o.kind = .other "\x7b") ∧
      (c.label.named = false ∧ c.kind = .other "\x7d") ∧ Listing out l.separator l.members vs ∧
      Literal.isPadded out u = l.normal.padded := by
  obtain ⟨u, rfl, halike, -, hchildren⟩ := h.node
  cases hempty : l.members.isEmpty with
  | true =>
    rw [hempty, if_pos rfl] at hchildren
    obtain ⟨b, rest, after, hcs, hblank⟩ := isBlankAt_of_placed hchildren
    obtain ⟨vs, ws, hvws, hopen, hclose⟩ := hchildren.cons
    obtain ⟨o, rfl, ho⟩ := exists_token_of_placed hopen
    obtain ⟨c, rfl, hc⟩ := exists_token_of_placed hclose
    have hnil := List.isEmpty_iff.1 hempty
    refine ⟨u, o, [], c, rfl, halike.named, halike.kind, hvws, ho, hc, ?_, ?_⟩
    · rw [hnil]
      exact ⟨rfl, by simp, rfl⟩
    · have hbrace : Text.isBlankAt ('\x7d' :: after) 0 = false := Text.isBlankAt_cons (by decide) after
      rw [Literal.isPadded, hcs]
      simp only [List.head?_cons, Option.any_some, hblank]
      simpa [token, Literal.normal, hempty] using hbrace
  | false =>
    rw [hempty, if_neg (by simp)] at hchildren
    obtain ⟨b, rest, after, hcs, hblank⟩ := isBlankAt_of_placed hchildren
    obtain ⟨vs, ws, hvws, hopen, hrest⟩ := hchildren.cons
    obtain ⟨xs, ys, rfl, hrest, hclose⟩ := hrest.append
    obtain ⟨xs, zs, rfl, hrest, hpad⟩ := hrest.append
    obtain ⟨ps, vs, rfl, hpad', hmembers⟩ := hrest.append
    obtain rfl := eq_nil_of_placed_padding hpad
    obtain rfl := eq_nil_of_placed_padding hpad'
    obtain ⟨o, rfl, ho⟩ := exists_token_of_placed hopen
    obtain ⟨c, rfl, hc⟩ := exists_token_of_placed hclose
    refine ⟨u, o, vs, c, rfl, halike.named, halike.kind, by simpa using hvws, ho, hc,
      listing_of_placed hmembers, ?_⟩
    rw [Literal.isPadded, hcs]
    simp only [List.head?_cons, Option.any_some, hblank, isBlankAt_layout hl hempty]
    simp [Literal.normal, hempty]

/-- A literal that is laid out is taken for what its text shows of it. -/
theorem ofObject_of_placed {l : Literal} (hl : l.Solid) (h : Placed out [l.layout f] us) :
    ∃ u, us = [u] ∧ u.label.named = true ∧ u.kind = .objectType ∧ u.containsComment = false ∧
      PropsType.ofObject out u = .ok (.literal l.normal) := by
  obtain ⟨u, o, vs, c, rfl, hnamed, hkind, hcs, ho, hc, hlisting, hpadded⟩ :=
    exists_listing_of_placed hl h
  have hcomments : u.children.any Tree.bearsComment = false := by
    simp [hcs, hlisting.no_comment, Tree.bearsComment, ho, hc]
  have hmembers : u.properChildren.mapM (Member.ofTree out) = .ok l.members := by
    have hproper : u.properChildren = vs.filter Tree.isProper := by
      simp [Tree.properChildren, hcs, Tree.isProper, ho, hc]
    rw [hproper, hlisting.members]
  have hseparator : Separator.ofTree u = l.normal.separator := by
    have hcommas : u.children.any (Tree.isToken (.other ",")) = vs.any (Tree.isToken (.other ",")) := by
      simp [hcs, Tree.isToken, ho, hc]
    rw [Separator.ofTree_eq, hcommas, hlisting.commas]
    cases hs : l.separator <;> simp [Literal.normal, hs]
  refine ⟨u, rfl, hnamed, hkind, ?_, ?_⟩
  · rw [Tree.containsComment_eq]
    exact hcomments
  · rw [PropsType.ofObject_of_no_comment (hasComment_of_no_comment hcomments), hmembers, hseparator,
      hpadded]
    rfl

/-! ### Intersections -/

/-- A literal or a reference that is laid out is taken for what its text shows of it, by itself and as a
member of an intersection. -/
theorem ofMember_of_placed {p : PropsType} (hp : p.Simple) (h : Placed out [p.layout f] us) :
    ∃ u, us = [u] ∧ u.isProper = true ∧ u.kind ≠ .intersectionType ∧ u.containsComment = false ∧
      PropsType.ofMember out u = .ok p.memberNormal ∧ PropsType.ofTree out u = .ok p.memberNormal := by
  cases p with
  | reference t =>
    obtain ⟨u, rfl, hnamed, hkind, htext, hcomment⟩ := exists_filled_of_placed h
    refine ⟨u, rfl, ?_, by simp [hkind], hcomment, ?_, ?_⟩
    · simp [Tree.isProper, hnamed, hkind, Kind.isComment]
    · rw [PropsType.ofMember, hkind, if_neg (by simp), htext]
      rfl
    · rw [PropsType.ofTree_of_reference (by rw [hkind]; rfl), htext]
      rfl
  | literal l =>
    obtain ⟨u, rfl, hnamed, hkind, hcomment, hobject⟩ := ofObject_of_placed hp h
    refine ⟨u, rfl, ?_, by simp [hkind], hcomment, ?_, ?_⟩
    · simp [Tree.isProper, hnamed, hkind, Kind.isComment]
    · rw [PropsType.ofMember, if_pos hkind]
      exact hobject
    · rw [PropsType.ofTree_of_object hkind]
      exact hobject
  | intersection ms => exact hp.elim

theorem Tree.bearsComment_eq_false (hproper : u.isProper = true) (h : u.containsComment = false) :
    u.bearsComment = false := by
  rw [Tree.isProper, Bool.and_eq_true, Bool.not_eq_true'] at hproper
  rw [bearsComment, h, hproper.2]
  simp

theorem Tree.flatten_eq (t : Tree) : t.flatten = flattenAll t.children := by
  cases t
  rfl

/-- However many members an intersection has, each of them is found in its place. -/
theorem forall₂_operands_of_placed {p : PropsType} {ps : List PropsType} (hp : p.Simple)
    (hps : ∀ q ∈ ps, q.Simple)
    (h : Placed out [(ps.map (PropsType.layout f)).foldl intersect (p.layout f)] us) :
    ∃ u, us = [u] ∧ u.isProper = true ∧ u.containsComment = false ∧
      (ps ≠ [] → u.kind = .intersectionType) ∧
      List.Forall₂ (fun v q => PropsType.ofMember out v = .ok q) u.operands
        ((p :: ps).map PropsType.memberNormal) := by
  -- the last member is the right side of the outermost node
  induction ps using List.reverseRecOn generalizing us with
  | nil =>
    obtain ⟨u, rfl, hproper, hkind, hcomment, hmember, -⟩ := ofMember_of_placed hp h
    refine ⟨u, rfl, hproper, hcomment, fun hne => absurd rfl hne, ?_⟩
    rw [Tree.operands, if_neg hkind]
    exact .cons hmember .nil
  | append_singleton ps q ih =>
    rw [List.map_append, List.foldl_append] at h
    obtain ⟨u, rfl, halike, -, hchildren⟩ := Placed.node h
    obtain ⟨vs, ws, hcs, hleft, hrest⟩ := hchildren.cons
    obtain ⟨xs, ys, rfl, hgap, hrest⟩ := hrest.cons
    obtain ⟨ts, zs, rfl, hampersand, hrest⟩ := hrest.cons
    obtain ⟨gs, rs, rfl, hgap', hright⟩ := hrest.cons
    obtain rfl := hgap.gap
    obtain rfl := hgap'.gap
    obtain ⟨t, rfl, htoken, -⟩ := exists_token_of_placed hampersand
    obtain ⟨v, rfl, hvproper, hvcomment, -, hoperands⟩ :=
      ih (fun r hr => hps r (List.mem_append_left _ hr)) hleft
    obtain ⟨w, rfl, hwproper, hwkind, hwcomment, hmember, -⟩ :=
      ofMember_of_placed (hps q (by simp)) hright
    have hkind : u.kind = .intersectionType := halike.kind
    have hflatten : u.flatten = v.operands ++ [w] := by
      have hskipped : t.isProper = false := by simp [Tree.isProper, htoken]
      rw [Tree.flatten_eq, hcs, Tree.operands]
      simp only [List.singleton_append, List.nil_append, Tree.flattenAll, hvproper, hskipped, hwproper,
        hwkind, if_true, if_false, Bool.false_eq_true]
      split <;> rfl
    refine ⟨u, rfl, ?_, ?_, fun _ => hkind, ?_⟩
    · have hnamed : u.label.named = true := halike.named
      simp [Tree.isProper, hnamed, hkind, Kind.isComment]
    · have hplain : t.bearsComment = false := by simp [Tree.bearsComment, htoken]
      rw [Tree.containsComment_eq, hcs]
      show List.any _ Tree.bearsComment = false
      simp [hplain, Tree.bearsComment_eq_false hvproper hvcomment,
        Tree.bearsComment_eq_false hwproper hwcomment]
    · rw [Tree.operands, if_pos hkind, hflatten, ← List.cons_append, List.map_append]
      exact List.rel_append hoperands (.cons hmember .nil)

/-- A props type that is laid out is taken for what its text shows of it. -/
theorem ofTree_of_placed {p : PropsType} (hp : p.Flat) (h : Placed out [p.layout f] us) :
    ∃ u, us = [u] ∧ PropsType.ofTree out u = .ok p.normal := by
  match p with
  | .reference t =>
    obtain ⟨u, rfl, -, -, -, -, htree⟩ := ofMember_of_placed (p := .reference t) hp h
    exact ⟨u, rfl, htree⟩
  | .literal l =>
    obtain ⟨u, rfl, -, -, -, -, htree⟩ := ofMember_of_placed (p := .literal l) hp h
    exact ⟨u, rfl, htree⟩
  | .intersection [] => exact absurd rfl hp.1
  | .intersection [m] =>
    obtain ⟨u, rfl, -, -, -, -, htree⟩ := ofMember_of_placed (hp.2 m (by simp)) h
    exact ⟨u, rfl, htree⟩
  | .intersection (m :: n :: ms) =>
    obtain ⟨hm, hms⟩ := List.forall_mem_cons.1 hp.2
    rw [PropsType.layout, PropsType.layoutAll_eq_map] at h
    obtain ⟨u, rfl, -, hcomment, hkind, hoperands⟩ := forall₂_operands_of_placed hm hms h
    have hkind := hkind (by simp)
    rw [Tree.operands, if_pos hkind] at hoperands
    refine ⟨u, rfl, ?_⟩
    rw [PropsType.ofTree_of_no_comment hkind hcomment, mapM_eq_ok_of_forall₂ hoperands]
    rfl

end Reading

/-! ### The normal form -/

/-- **Written props are in normal form.**  Take the text of a props type, a literal or an intersection of
literals and references, with the nodes that lay it out.  A props type can be taken out of it again that is
written in the same way, and it is the one that was written if the text shows all there is to it. -/
theorem render_reread (f : Filling) (p : PropsType) (h : p.Flat) :
    ∃ t, treesAll 0 [p.layout f] = [t] ∧ textAll [p.layout f] = p.render ∧
      ∃ q, PropsType.ofTree p.render t = .ok q ∧ q.render = p.render ∧ (p.Evident → q = p) := by
  have htext : textAll [p.layout f] = p.render := by simp [p.text_layout f]
  obtain ⟨t, ht, htree⟩ := ofTree_of_placed h (placed_self [p.layout f])
  rw [htext] at htree
  exact ⟨t, ht, htext, p.normal, htree, p.render_normal, PropsType.normal_eq_self⟩

/-- `Props & { a: A, b(): B }`. -/
def mingled : PropsType :=
  .intersection [.reference "Props".toList,
    .literal ⟨[⟨.property, "a: A".toList⟩, ⟨.method, "b(): B".toList⟩], .comma, true⟩]

/-- `{a: A}`, as an intersection of one type whose separator is a comma. -/
def lone : PropsType :=
  .intersection [.literal ⟨[⟨.property, "a: A".toList⟩], .comma, false⟩]

/-- An intersection comes back as it was.  Of the other one only the object type comes back, with the usual
separator, and it is written in the same way. -/
theorem mingled_reread :
    (mingled.Flat ∧ mingled.Evident ∧ mingled.render = "Props & \x7b a: A, b(): B \x7d".toList ∧
      ∃ t, treesAll 0 [mingled.layout .bare] = [t] ∧ PropsType.ofTree mingled.render t = .ok mingled) ∧
    lone.Flat ∧ lone.render = "\x7ba: A\x7d".toList ∧
      ∃ t q, treesAll 0 [lone.layout .bare] = [t] ∧ PropsType.ofTree lone.render t = .ok q ∧
        q.render = lone.render := by
  have hmingled : mingled.Flat := by
    refine ⟨by simp, ?_⟩
    simp [PropsType.Simple, Literal.Solid, Text.Solid, Text.blanks]
  have hevident : mingled.Evident := by
    refine ⟨by simp, ?_⟩
    simp [Literal.Evident]
  have hlone : lone.Flat := by
    refine ⟨by simp, ?_⟩
    simp [PropsType.Simple, Literal.Solid, Text.Solid, Text.blanks]
  obtain ⟨t, ht, -, q, hq, -, hself⟩ := render_reread .bare mingled hmingled
  obtain ⟨u, hu, -, r, hr, hsame, -⟩ := render_reread .bare lone hlone
  obtain rfl := hself hevident
  exact ⟨⟨hmingled, hevident, rfl, t, ht, hq⟩, hlone, rfl, u, r, hu, hr, hsame⟩

end PlainComponents
