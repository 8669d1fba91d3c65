import PlainComponents.Proofs.Conversion.Marks
import PlainComponents.Proofs.Traversal
import PlainComponents.Proofs.Tree.Layout

/-!
# Nodes before and after the walk

Whether a node declares a component is decided by kinds, fields and a few texts below it.  `Kin` relates
a node of the source to what the walk makes of it when nothing is asked of it, laid out in the text that
the walk writes.  Kin are labelled alike, their first children proper are kin, and so are all their
children unless the node declares a component.

* A declarator that declares no component does not start to, although its annotation may hold others that
  were changed (`declaration?_eq_none_of_kin`).
* A declarator that declares one stops, since its type is gone (`declaration?_eq_none_of_declared`).
-/

namespace PlainComponents

open Concrete Declaration Mark

/-! ### Kin -/

theorem exists_find?_of_forall₂ {α β : Type} {R : α → β → Prop} {p : α → Bool} {q : β → Bool}
    {xs : List α} {ys : List β} {y : β} (hpq : ∀ x y, R x y → q y = p x) (h : List.Forall₂ R xs ys)
    (hy : ys.find? q = some y) : ∃ x, xs.find? p = some x ∧ R x y := by
  have hrel := rel_find?_of_forall₂ hpq h
  rw [hy] at hrel
  generalize xs.find? p = found at hrel ⊢
  cases hrel with
  | some hxy => exact ⟨_, rfl, hxy⟩

section Kin

variable {src out : Text} {note : Tree → Concrete}

variable (src out note) in
/-- In `out` the second node is what the walk makes of the first one without a task. -/
def Kin (t u : Tree) : Prop :=
  Placed out (rebuild src note .keep t) [u]

theorem rebuild_keep (t : Tree) :
    rebuild src note .keep t = [.node t.label
      (rebuildAll src note (scan src note .keep t) t.start t.children t.stop)] := by
  cases t
  rfl

theorem Kin.placed {t u : Tree} (h : Kin src out note t u) :
    t.label.Alike u.label ∧ Placed out (rebuildAll src note (scan src note .keep t) t.start
      t.children t.stop) u.children := by
  rw [Kin, rebuild_keep] at h
  obtain ⟨v, hv, halike, -, hplaced⟩ := h.node
  obtain rfl := List.head_eq_of_cons_eq hv
  exact ⟨halike, hplaced⟩

variable {t u : Tree} {us cs : List Tree} {pos stop : Nat}

theorem Kin.plays (f : Field) (h : Kin src out note t u) : u.plays f = t.plays f := by
  rw [Tree.plays, Tree.plays, h.placed.1.field]

theorem Kin.kind (h : Kin src out note t u) : u.kind = t.kind :=
  h.placed.1.kind

theorem Kin.isProper (h : Kin src out note t u) : u.isProper = t.isProper := by
  rw [Tree.isProper, Tree.isProper, h.placed.1.named, h.kind]

/-- Where the walk keeps all children, they have kin in the same order. -/
theorem forall₂_kin (h : Placed out (rebuildAll src note .keep pos cs stop) us) :
    List.Forall₂ (Kin src out note) cs us := by
  induction cs generalizing pos us with
  | nil =>
    rw [Placed.gap h]
    exact .nil
  | cons c cs ih =>
    obtain ⟨vs, ws, rfl, hgap, h⟩ := Placed.cons h
    obtain ⟨xs, ys, rfl, hc, hcs⟩ := h.append
    obtain rfl := hgap.gap
    obtain ⟨x, rfl, -⟩ := (rebuild_keep c ▸ hc).node
    exact .cons hc (ih hcs)

theorem Kin.children (h : Kin src out note t u) (hd : declaration? src t = none) :
    List.Forall₂ (Kin src out note) t.children u.children := by
  have hplaced := h.placed.2
  rw [scan, hd] at hplaced
  exact forall₂_kin hplaced

theorem exists_field?_of_forall₂ {f : Field} {x : Tree}
    (h : List.Forall₂ (Kin src out note) t.children u.children) (hx : u.field? f = some x) :
    ∃ y, t.field? f = some y ∧ Kin src out note y x :=
  exists_find?_of_forall₂ (fun _ _ hk => hk.plays f) h hx

/-! ### Declarators in the walk -/

/-- Up to the name of a declarator all is kept. -/
theorem rebuildAll_toName (n : Option Concrete) {pre : List Tree} {a : Tree} (rest : List Tree)
    (hpre : ∀ x ∈ pre, x.plays .name = false) (ha : a.plays .name = true) (pos stop : Nat) :
    rebuildAll src note (.toName n) pos (pre ++ a :: rest) stop =
      rebuildAll src note .keep pos pre a.start ++ (rebuild src note .keep a ++
        rebuildAll src note (.toType a.stop n) a.stop rest stop) := by
  induction pre generalizing pos with
  | nil => simp [rebuildAll, Scan.step, ha]
  | cons x pre ih =>
    have hx := hpre x List.mem_cons_self
    have hpre := ih fun y hy => hpre y (List.mem_cons_of_mem _ hy)
    simp [rebuildAll, Scan.step, hx, hpre]

/-- From the name to the end of the type nothing is written. -/
theorem rebuildAll_toType (n : Option Concrete) {mid : List Tree} {b : Tree} (post : List Tree)
    (hmid : ∀ x ∈ mid, x.plays .type = false) (hb : b.plays .type = true) (p pos stop : Nat) :
    rebuildAll src note (.toType p n) pos (mid ++ b :: post) stop =
      rebuildAll src note (.toValue n) b.stop post stop := by
  induction mid generalizing pos with
  | nil => simp [rebuildAll, Scan.step, hb]
  | cons x mid ih =>
    have hx := hmid x List.mem_cons_self
    have hmid := ih fun y hy => hmid y (List.mem_cons_of_mem _ hy)
    simp [rebuildAll, Scan.step, hx, hmid]

/-- The children of a declared component after the walk: kin of those up to the name, and then nodes for
those behind the type. -/
theorem exists_placed_of_declaration? {d : Declaration} {n : Option Concrete} (ht : t.Parsed)
    (hd : declaration? src t = some d)
    (h : Placed out (rebuildAll src note (.toName n) pos t.children stop) us) :
    ∃ pre mid post vs ws, t.children = pre ++ d.name :: (mid ++ d.ascription :: post) ∧
      us = vs ++ ws ∧ List.Forall₂ (Kin src out note) (pre ++ [d.name]) vs ∧
      Placed out (rebuildAll src note (.toValue n) d.ascription.stop post stop) ws := by
  obtain ⟨type, leading, hd⟩ := declaration?_eq_some_iff.1 hd
  obtain ⟨pre, mid, post, hcs, hpre, hmid, -⟩ := hd.exists_children ht
  have hname := Tree.plays_iff.2 (Tree.field_of_field? hd.name)
  have htype := Tree.plays_iff.2 (Tree.field_of_field? hd.ascription)
  rw [hcs, rebuildAll_toName n _ hpre hname, rebuildAll_toType n _ hmid htype] at h
  obtain ⟨vs, ws, rfl, hvs, h⟩ := h.append
  obtain ⟨xs, ys, rfl, hxs, hys⟩ := h.append
  obtain ⟨x, rfl, -⟩ := (rebuild_keep d.name ▸ hxs).node
  refine ⟨pre, mid, post, vs ++ [x], ys, hcs, by simp, ?_, hys⟩
  exact List.rel_append (forall₂_kin hvs) (.cons hxs .nil)

/-- What a first child proper is kin of is the first child proper. -/
theorem Kin.exists_firstProper? {x : Tree} (h : Kin src out note t u) (ht : t.Parsed)
    (hx : t.Lexical) (hux : u.firstProper? = some x) :
    ∃ y, t.firstProper? = some y ∧ Kin src out note y x := by
  cases hd : declaration? src t with
  | none => exact exists_find?_of_forall₂ (fun _ _ hk => hk.isProper) (h.children hd) hux
  | some d =>
    have hplaced := h.placed.2
    rw [scan, hd] at hplaced
    obtain ⟨pre, mid, post, vs, ws, hcs, hus, hkin, -⟩ := exists_placed_of_declaration? ht hd hplaced
    obtain ⟨type, leading, hd⟩ := declaration?_eq_some_iff.1 hd
    have hnamed := hx.identifiers _ (Tree.child_mem_preorder (Tree.mem_of_field? hd.name)) hd.name_kind
    have hproper : d.name.isProper = true := by
      simp [Tree.isProper, hnamed, hd.name_kind, Kind.isComment]
    -- the name is proper, so nothing behind it matters
    obtain ⟨y, hy⟩ : ∃ y, (pre ++ [d.name]).find? Tree.isProper = some y := by
      rw [← Option.isSome_iff_exists, List.find?_isSome]
      exact ⟨d.name, by simp, hproper⟩
    obtain ⟨z, hz, hyz⟩ := exists_find?_of_forall₂
      (fun v c (hk : Kin src out note c v) => hk.isProper.symm) hkin.flip hy
    rw [Tree.firstProper?, hus, List.find?_append, hz, Option.some_or] at hux
    obtain rfl := Option.some.inj hux
    refine ⟨y, ?_, hyz⟩
    have hcs' : t.children = (pre ++ [d.name]) ++ (mid ++ d.ascription :: post) := by simp [hcs]
    rw [Tree.firstProper?, hcs', List.find?_append, hy, Option.some_or]

/-! ### What decides about a component type -/

/-- Without components, the walk copies. -/
theorem rebuild_of_plain (note : Tree → Concrete) (h : t.Plain src) :
    rebuild src note .keep t = [t.concrete src] := by
  induction t using Tree.inductionOn with
  | node l cs ih =>
    have hall : ∀ ds, (∀ c ∈ ds, c ∈ cs) → ∀ pos,
        rebuildAll src note .keep pos ds l.stop = Tree.parts src pos ds l.stop := by
      intro ds
      induction ds with
      | nil => exact fun _ _ => rfl
      | cons c ds ihds =>
        intro hds pos
        have hc := hds c List.mem_cons_self
        have hcopy := ih c hc (h.of_mem (Tree.child_mem_preorder hc))
        simp only [rebuildAll, Scan.step, Tree.parts, hcopy, List.singleton_append,
          ihds fun d hd => hds d (List.mem_cons_of_mem _ hd)]
    have hscan : scan src note .keep (.node l cs) = .keep := by
      rw [scan, h _ (Tree.mem_preorder_self _)]
      rfl
    rw [rebuild_keep, hscan, Tree.concrete]
    simp only [Tree.children_node, Tree.start_node, Tree.stop_node, Tree.label_node,
      hall cs fun _ hc => hc]

/-- Where no component is declared, the text is the same. -/
theorem Kin.text_eq (h : Kin src out note t u) (hs : t.WellSpaced) (hb : t.OnBoundaries src)
    (hp : t.Plain src) : u.text out = t.text src := by
  rw [Kin, rebuild_of_plain note hp] at h
  rw [← Tree.text_concrete hs hb]
  obtain ⟨l, cs⟩ := t
  have h : Placed out [.node l (Tree.parts src l.start cs l.stop)] [u] := h
  obtain ⟨v, hv, -, htext, -⟩ := h.node
  obtain rfl := List.head_eq_of_cons_eq hv
  exact htext

/-- What the analysis of a tree may rely on. -/
structure Grammatical (src : Text) (t : Tree) : Prop where
  parsed : t.Parsed
  lexical : t.Lexical
  boundaries : t.OnBoundaries src

theorem Grammatical.of_mem {n : Tree} (h : Grammatical src t) (hn : n ∈ t.preorder) :
    Grammatical src n :=
  ⟨h.parsed.of_mem hn, h.lexical.of_mem hn, h.boundaries.of_mem hn⟩

theorem Grammatical.of_child {n : Tree} (h : Grammatical src t) (hn : n ∈ t.children) :
    Grammatical src n :=
  h.of_mem (Tree.child_mem_preorder hn)

theorem Kin.text_eq_of_plain (h : Kin src out note t u) (ht : Grammatical src t)
    (hp : t.Plain src) : u.text out = t.text src :=
  h.text_eq ht.parsed.spaced ht.boundaries hp

/-- An alias that is spelt after the walk was spelt before. -/
theorem Kin.typeAlias?_eq {a : Alias} (h : Kin src out note t u) (ht : Grammatical src t)
    (ha : typeAlias? out u = some a) : typeAlias? src t = some a := by
  have hself := t.mem_preorder_self
  unfold typeAlias? at ha ⊢
  rw [h.kind] at ha
  split at ha
  next hk =>
    have hleaf := List.isEmpty_iff.1 (ht.lexical.typeNames t hself hk)
    rwa [h.text_eq_of_plain ht (Tree.plain_of_leaf hleaf)] at ha
  next hk =>
    -- nothing is declared in a qualified name, so its parts read as before
    have hplain : t.Plain src := Tree.plain_of_kind (ht.lexical.qualified t hself hk)
    have hkin := h.children (hplain t hself)
    obtain ⟨m, hm, ha⟩ := Option.bind_eq_some_iff.1 ha
    obtain ⟨v, hg, ha⟩ := Option.bind_eq_some_iff.1 ha
    obtain ⟨n, hn, ha⟩ := Option.bind_eq_some_iff.1 ha
    obtain ⟨m', hm', hkm⟩ := exists_field?_of_forall₂ hkin hm
    obtain ⟨n', hn', hkn⟩ := exists_field?_of_forall₂ hkin hn
    have hmem := Tree.mem_of_field? hn'
    have htext := hkn.text_eq_of_plain (ht.of_child hmem)
      (hplain.of_mem (Tree.child_mem_preorder hmem))
    have hmk : m'.kind = .identifier := hkm.kind.symm.trans ((Option.guard_eq_some' v).1 hg)
    simp [hm', hmk, hn', guard, ← htext, ha]
  next => cases ha

/-- The members of an intersection have kin in the same order. -/
theorem Kin.forall₂_flatten (h : Kin src out note t u) (hk : t.kind = .intersectionType) :
    List.Forall₂ (Kin src out note) t.flatten u.flatten := by
  induction t using Tree.inductionOn generalizing u with
  | node l cs ih =>
    have hd : declaration? src (.node l cs) = none :=
      declaration?_eq_none_of_kind (by rw [hk]; decide)
    obtain ⟨ul, us⟩ := u
    have hkin : List.Forall₂ (Kin src out note) cs us := h.children hd
    show List.Forall₂ _ (Tree.flattenAll cs) (Tree.flattenAll us)
    clear h hd hk
    induction hkin with
    | nil => exact .nil
    | @cons c v cs us hcv hrest ihcs =>
      have hrest := ihcs fun d hd => ih d (List.mem_cons_of_mem _ hd)
      rw [Tree.flattenAll, Tree.flattenAll, hcv.isProper, hcv.kind]
      split
      · split
        next hck => exact List.rel_append (ih c List.mem_cons_self hcv hck) hrest
        next => exact .cons hcv hrest
      · exact hrest

theorem Kin.exists_leading? {x : Tree} (h : Kin src out note t u) (hx : leading? u = some x) :
    ∃ y, leading? t = some y ∧ Kin src out note y x := by
  unfold leading? at hx ⊢
  rw [h.kind] at hx
  split at hx
  next hk =>
    have hflat := h.forall₂_flatten hk
    rw [if_pos hk]
    cases hf : u.flatten with
    | nil => rw [hf] at hx; cases hx
    | cons v vs =>
      rw [hf] at hx hflat
      obtain rfl := Option.some.inj hx
      cases ht : t.flatten with
      | nil => rw [ht] at hflat; cases hflat
      | cons y ys =>
        rw [ht] at hflat
        cases hflat with
        | cons hyv _ => exact ⟨y, rfl, hyv⟩
  next hk =>
    obtain rfl := Option.some.inj hx
    exact ⟨t, if_neg hk, h⟩

theorem Kin.exists_argument? {x : Tree} (h : Kin src out note t u) (ht : Grammatical src t)
    (hk : t.kind = .genericType) (hx : argument? u = some x) : ∃ y, argument? t = some y := by
  have hd : declaration? src t = none := declaration?_eq_none_of_kind (by rw [hk]; decide)
  obtain ⟨as, has, hfirst, hshape⟩ := argument?_eq_some hx
  obtain ⟨bs, hbs, hkin⟩ := exists_field?_of_forall₂ (h.children hd) has
  have hg := ht.of_child (Tree.mem_of_field? hbs)
  obtain ⟨y, hy, hyx⟩ := hkin.exists_firstProper? hg.parsed hg.lexical hfirst
  rw [hyx.kind] at hshape
  exact ⟨y, by simp [argument?, hbs, hy, hshape, guard]⟩

/-- A component type after the walk was one before. -/
theorem Kin.exists_componentType? {a : Alias} {props : Option Tree} (h : Kin src out note t u)
    (ht : Grammatical src t) (hc : componentType? out u = some (a, props)) :
    ∃ props, componentType? src t = some (a, props) := by
  rcases componentType?_eq_some hc with ⟨hk, name, p, hname, ha, hp, -⟩ | ⟨hk, ha, -⟩
  · have hk : t.kind = .genericType := h.kind.symm.trans hk
    have hd : declaration? src t = none := declaration?_eq_none_of_kind (by rw [hk]; decide)
    obtain ⟨n, hn, hkin⟩ := exists_field?_of_forall₂ (h.children hd) hname
    obtain ⟨q, hq⟩ := h.exists_argument? ht hk hp
    have ha := hkin.typeAlias?_eq (ht.of_child (Tree.mem_of_field? hn)) ha
    exact ⟨some q, by simp [componentType?, hk, hn, ha, hq]⟩
  · have ha := h.typeAlias?_eq ht ha
    refine ⟨none, ?_⟩
    unfold componentType?
    split
    next hk' => exact absurd (h.kind.trans hk') hk
    next => simp [ha]

/-- A declarator that declares no component does not start to. -/
theorem declaration?_eq_none_of_kin (ht : Grammatical src t) (hd : declaration? src t = none)
    (hk : t.kind = u.kind) (h : List.Forall₂ (Kin src out note) t.children u.children) :
    declaration? out u = none := by
  refine declaration?_eq_none_of_not_declared fun d type leading hdu => ?_
  obtain ⟨name, hname, hkn⟩ := exists_field?_of_forall₂ h hdu.name
  obtain ⟨asc, hasc, hka⟩ := exists_field?_of_forall₂ h hdu.ascription
  obtain ⟨value, hvalue, -⟩ := exists_field?_of_forall₂ h hdu.value
  have hga := ht.of_child (Tree.mem_of_field? hasc)
  obtain ⟨type', htype, hkt⟩ := hka.exists_firstProper? hga.parsed hga.lexical hdu.first
  have hgt := hga.of_child (Tree.mem_of_firstProper? htype)
  obtain ⟨leading', hleading, hkl⟩ := hkt.exists_leading? hdu.leads
  have hgl := hgt.of_mem (mem_preorder_of_leading? hleading)
  obtain ⟨props, hprops⟩ := hkl.exists_componentType? hgl hdu.component
  have hsome : declaration? src t = some ⟨d.typeAlias, t, name, asc, value, props⟩ :=
    declaration?_eq_some_iff.2 ⟨type', leading', rfl, hk.trans hdu.kind, hname,
      hkn.kind.symm.trans hdu.name_kind, hasc, hvalue, htype, hleading, hprops⟩
  cases hd.symm.trans hsome

/-! ### Declarators without their types -/

theorem exists_rebuild_function (src : Text) (note : Tree → Concrete) (m : Concrete) (t : Tree) :
    ∃ ps, rebuild src note (.function m) t = [.node t.label ps] := by
  cases t
  exact ⟨_, rfl⟩

/-- Behind the type of a declarator all nodes keep their labels. -/
theorem forall₂_alike {n : Option Concrete}
    (h : Placed out (rebuildAll src note (.toValue n) pos cs stop) us) :
    List.Forall₂ (fun c u => c.label.Alike u.label) cs us := by
  have hkeep : ∀ {pos cs us}, Placed out (rebuildAll src note .keep pos cs stop) us →
      List.Forall₂ (fun c u : Tree => c.label.Alike u.label) cs us :=
    fun h => (forall₂_kin h).imp fun _ _ hk => hk.placed.1
  cases n with
  | none => exact hkeep h
  | some m =>
    induction cs generalizing pos us with
    | nil =>
      rw [Placed.gap h]
      exact .nil
    | cons c cs ih =>
      rw [Scan.toValue] at h ih
      by_cases hv : c.plays .value
      · have hstep : (Scan.seek (Tree.plays .value) (.function m)).step c =
            (.visit (.function m), .keep) := by simp [Scan.step, hv]
        obtain ⟨ps, hps⟩ := exists_rebuild_function src note m c
        simp only [rebuildAll, hstep, hps] at h
        obtain ⟨vs, ws, rfl, hgap, h⟩ := h.cons
        obtain ⟨xs, ys, rfl, hxs, hys⟩ := h.cons
        obtain rfl := hgap.gap
        obtain ⟨x, rfl, halike, -⟩ := hxs.node
        exact .cons halike (hkeep hys)
      · have hstep : (Scan.seek (Tree.plays .value) (.function m)).step c =
            (.visit .keep, .seek (Tree.plays .value) (.function m)) := by simp [Scan.step, hv]
        simp only [rebuildAll, hstep, rebuild_keep] at h
        obtain ⟨vs, ws, rfl, hgap, h⟩ := h.cons
        obtain ⟨xs, ys, rfl, hxs, hys⟩ := h.cons
        obtain rfl := hgap.gap
        obtain ⟨x, rfl, halike, -⟩ := hxs.node
        exact .cons halike (ih hys)

/-- A declarator that declared a component has no type any more. -/
theorem declaration?_eq_none_of_declared {d : Declaration} {n : Option Concrete} (ht : t.Parsed)
    (hx : t.Lexical) (hd : declaration? src t = some d)
    (h : Placed out (rebuildAll src note (.toName n) pos t.children stop) u.children) :
    declaration? out u = none := by
  obtain ⟨pre, mid, post, vs, ws, hcs, hus, hkin, hws⟩ := exists_placed_of_declaration? ht hd h
  obtain ⟨type, leading, hd⟩ := declaration?_eq_some_iff.1 hd
  have hcs' : t.children = (pre ++ d.name :: mid) ++ d.ascription :: post := by simp [hcs]
  have htype := Tree.plays_iff.2 (Tree.field_of_field? hd.ascription)
  have hnone := (hx.types t t.mem_preorder_self hd.kind).not_plays hcs' htype
  -- all the nodes are labelled like children that do not play the part of the type
  have hlabels : List.Forall₂ (fun c u => c.label.Alike u.label) (pre ++ [d.name] ++ post)
      u.children := by
    rw [hus]
    exact List.rel_append (hkin.imp fun _ _ hk => hk.placed.1) (forall₂_alike hws)
  refine declaration?_eq_none_of_not_declared fun d' type' leading' hdu => ?_
  obtain ⟨c, hc, -⟩ := exists_find?_of_forall₂ (p := Tree.plays .type) (q := Tree.plays .type)
    (fun c u halike => by rw [Tree.plays, Tree.plays, halike.field]) hlabels hdu.ascription
  have hmem := List.mem_of_find?_eq_some hc
  have hplays := List.find?_some hc
  rw [hnone c (by simp at hmem ⊢; tauto)] at hplays
  cases hplays

end Kin

end PlainComponents
