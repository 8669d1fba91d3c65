import PlainComponents.Proofs.Conversion.Kin
import PlainComponents.Proofs.Conversion.Overlap
import PlainComponents.Proofs.Conversion.PropsNote

/-!
# A converted source has nothing left to convert

The walk that writes a converted source also carries its tree along: declarators lose their types, and
first parameters get copies of the props.  Laid out in the converted text, this tree declares no
component (`carried_converted`), so converting again changes nothing.

No node that the walk copies declares a component, whether or not it did so before
(`declaration?_eq_none_of_placed`).  What is written at a parameter was below an annotation, and nothing
was declared there, or else the edits would have clashed (`plain_props`).  `Concrete.Plain` puts the two
together along the walk.
-/

namespace PlainComponents

open Concrete Declaration Mark

/-! ### Concrete trees without components -/

/-- Wherever the trees stand in `out`, no component is declared in them. -/
def Concrete.Plain (out : Text) (ps : List Concrete) : Prop :=
  ∀ us, Placed out ps us → ∀ u ∈ us, u.Plain out

section Plain

variable {out : Text} {ps qs : List Concrete} {l : Label}

theorem Concrete.Plain.append (h : Plain out ps) (h' : Plain out qs) : Plain out (ps ++ qs) := by
  intro us hus u hu
  obtain ⟨vs, ws, rfl, hvs, hws⟩ := hus.append
  rcases List.mem_append.1 hu with hu | hu
  · exact h vs hvs u hu
  · exact h' ws hws u hu

theorem Concrete.Plain.cons {p : Concrete} (h : Plain out [p]) (h' : Plain out ps) :
    Plain out (p :: ps) :=
  h.append h'

theorem Concrete.plain_nil (out : Text) : Plain out [] := by
  intro us hus u hu
  rw [hus.nil] at hu
  cases hu

theorem Concrete.plain_gap (out t : Text) : Plain out [.gap t] := by
  intro us hus u hu
  rw [hus.gap] at hu
  cases hu

/-- A node is plain if its parts are and the node itself declares nothing. -/
theorem Concrete.Plain.node (h : Plain out ps)
    (hroot : ∀ u, l.Alike u.label → Placed out ps u.children → declaration? out u = none) :
    Plain out [.node l ps] := by
  intro us hus u hu
  obtain ⟨v, rfl, halike, -, hplaced⟩ := hus.node
  obtain rfl := List.mem_singleton.1 hu
  intro n hn
  obtain ⟨ul, cs⟩ := u
  rcases Tree.mem_preorder_node.1 hn with rfl | ⟨c, hc, hnc⟩
  · exact hroot _ halike hplaced
  · exact h cs hplaced c hc n hnc

theorem Concrete.Plain.node_of_kind (h : Plain out ps) (hk : l.kind ≠ .variableDeclarator) :
    Plain out [.node l ps] := by
  refine h.node fun u halike _ => declaration?_eq_none_of_kind ?_
  rw [Tree.kind, halike.kind]
  exact hk

theorem Concrete.plain_token (out : Text) (s : String) : Plain out [token s] :=
  (plain_gap out s.toList).node_of_kind (by simp)

/-- Whether a node declares a component does not depend on the part that it plays itself. -/
theorem declaration?_eq_none_of_children {src : Text} {t u : Tree} (hk : u.kind = t.kind)
    (hc : u.children = t.children) (h : declaration? src t = none) : declaration? src u = none := by
  refine declaration?_eq_none_of_not_declared fun d type leading hd => ?_
  have hfield : ∀ f, t.field? f = u.field? f := fun f => by
    rw [Tree.field?_eq_find?, Tree.field?_eq_find?, hc]
  have hsome : declaration? src t = some { d with declarator := t } :=
    declaration?_eq_some_iff.2 ⟨type, leading, rfl, hk.symm.trans hd.kind, (hfield _).trans hd.name,
      hd.name_kind, (hfield _).trans hd.ascription, (hfield _).trans hd.value, hd.first, hd.leads,
      hd.component⟩
  cases h.symm.trans hsome

theorem Concrete.Plain.playing {p : Concrete} (h : Plain out [p]) (f : Field) :
    Plain out [p.playing f] := by
  cases p with
  | gap t => exact h
  | node l ps =>
    rintro us ⟨before, after, hout, rfl⟩ u hu
    have hplaced : Placed out [.node l ps] (treesAll before.byteLength [.node l ps]) :=
      ⟨before, after, hout, rfl⟩
    have hplain := h _ hplaced _ List.mem_cons_self
    obtain rfl := List.mem_singleton.1 hu
    intro n hn
    rcases Tree.mem_preorder_node.1 hn with rfl | ⟨c, hc, hnc⟩
    · have hroot := hplain _ (Tree.mem_preorder_self _)
      refine declaration?_eq_none_of_children ?_ ?_ hroot <;> rfl
    · exact hplain n (Tree.mem_preorder_node.2 (.inr ⟨c, hc, hnc⟩))

end Plain

/-! ### Nothing is declared after the walk -/

/-- The annotation that a task hands on. -/
def Task.note? : Task → Option Concrete
  | keep => none
  | function m | arguments m | list m | parameter m | replaced m | followed m | wrapped m => some m

/-- The annotation that is handed to children. -/
def Scan.note? : Scan → Option Concrete
  | keep => none
  | seek _ task => task.note?
  | toName n | toType _ n => n

theorem Task.note?_scan {task : Task} {t : Tree} {m : Concrete}
    (h : (task.scan t).note? = some m) : task.note? = some m := by
  cases task <;> simp only [Task.scan] at h <;> (repeat' split at h) <;>
    first | exact h | cases h

theorem Scan.note?_step {s : Scan} {c : Tree} {m : Concrete}
    (h : (s.step c).2.note? = some m ∨ ∃ task, (s.step c).1 = .visit task ∧ task.note? = some m) :
    s.note? = some m := by
  cases s with
  | keep => simp [step, note?, Task.note?] at h
  | seek test task =>
    by_cases ht : test c
    · simpa [step, ht, note?] using h
    · simpa [step, ht, note?, Task.note?] using h
  | toName n =>
    by_cases hn : c.plays .name <;> simpa [step, hn, note?, Task.note?] using h
  | toType pos n =>
    by_cases ht : c.plays .type
    · cases n with
      | none => simp [step, ht, toValue, note?] at h
      | some n => simpa [step, ht, toValue, note?, Task.note?] using h
    · simpa [step, ht, note?] using h

section Walk

variable {src out : Text} {note : Tree → Concrete}

theorem plain_rebuildAll {s : Scan} {cs : List Tree} (pos stop : Nat)
    (hnote : ∀ m, s.note? = some m → Plain out [m])
    (hquiet : ∀ x, skipped x ∈ marksAll src (scan src note) s cs → x.Plain src)
    (ih : ∀ c ∈ cs, ∀ task, (∀ m, task.note? = some m → Plain out [m]) →
      (∀ x, skipped x ∈ marks src (scan src note) task c → x.Plain src) →
      Plain out (rebuild src note task c)) :
    Plain out (rebuildAll src note s pos cs stop) := by
  induction cs generalizing s pos with
  | nil => exact plain_gap _ _
  | cons c cs ihcs =>
    have ih' := fun d hd => ih d (List.mem_cons_of_mem _ hd)
    have hnext : ∀ m, (s.step c).2.note? = some m → Plain out [m] :=
      fun m hm => hnote m (Scan.note?_step (.inl hm))
    rcases s.step_cases c with ⟨task, next, hstep, -, -⟩ | ⟨p, n, rfl, -, hstep⟩ |
      ⟨p, n, rfl, -, hstep⟩
    · simp only [marksAll, hstep, List.mem_append] at hquiet
      rw [hstep] at hnext
      have hchild := ih c List.mem_cons_self task
        (fun m hm => hnote m (Scan.note?_step (.inr ⟨task, by rw [hstep], hm⟩)))
        fun x hx => hquiet x (.inl hx)
      have hrest : Plain out (rebuildAll src note next c.stop cs stop) :=
        ihcs c.stop hnext (fun x hx => hquiet x (.inr hx)) ih'
      simp only [rebuildAll, hstep]
      exact (plain_gap _ _).cons (hchild.append hrest)
    · simp only [marksAll, hstep, List.mem_cons] at hquiet
      rw [hstep] at hnext
      simp only [rebuildAll, hstep]
      exact ihcs _ hnext (fun x hx => hquiet x (.inr hx)) ih'
    · simp only [marksAll, hstep, List.mem_cons] at hquiet
      rw [hstep] at hnext
      simp only [rebuildAll, hstep]
      exact ihcs _ hnext (fun x hx => hquiet x (.inr (.inr hx))) ih'

/-- Whatever is asked of it, no node declares a component after the walk. -/
theorem declaration?_eq_none_of_placed {t u : Tree} {task : Task} (ht : Grammatical src t)
    (hlabel : t.label.Alike u.label)
    (h : Placed out (rebuildAll src note (scan src note task t) t.start t.children t.stop)
      u.children) : declaration? out u = none := by
  have hk : t.kind = u.kind := hlabel.kind.symm
  unfold scan at h
  split at h
  next d hd => exact declaration?_eq_none_of_declared ht.parsed ht.lexical hd h
  next hd =>
    by_cases hdeclarator : t.kind = .variableDeclarator
    · -- no task concerns a declarator
      have hscan : task.scan t = .keep := by
        cases task <;> simp [Task.scan, hdeclarator, Kind.isFunction, Kind.formalParameters]
      rw [hscan] at h
      exact declaration?_eq_none_of_kin ht hd hk (forall₂_kin h)
    · exact declaration?_eq_none_of_kind (hk ▸ hdeclarator)

theorem Concrete.plain_parameterList {p m : Concrete} (hp : Plain out [p]) (hm : Plain out [m]) :
    Plain out [parameterList p m] := by
  have hparameter : Plain out [branch .requiredParameter none [p, m]] :=
    (hp.cons hm).node_of_kind (by simp)
  exact ((plain_token out "(").cons (hparameter.cons (plain_token out ")"))).node_of_kind
    (by simp [Kind.formalParameters])

/-- **After the walk nothing is declared**, if no component was left out and nothing is declared in what
is written at the parameters. -/
theorem plain_rebuild {t : Tree} (ht : Grammatical src t)
    (hnotes : ∀ n ∈ t.preorder, ∀ d p, declaration? src n = some d → d.props = some p →
      Plain out [note p])
    (task : Task) (hnote : ∀ m, task.note? = some m → Plain out [m])
    (hquiet : ∀ x, skipped x ∈ marks src (scan src note) task t → x.Plain src) :
    Plain out (rebuild src note task t) := by
  induction t using Tree.inductionOn generalizing task with
  | node l cs ih =>
    -- the node with its children rebuilt, for any task
    have hcopy : ∀ task : Task, (∀ m, task.note? = some m → Plain out [m]) →
        (∀ x, skipped x ∈ marksAll src (scan src note) (scan src note task (.node l cs)) cs →
          x.Plain src) →
        Plain out [.node l
          (rebuildAll src note (scan src note task (.node l cs)) l.start cs l.stop)] := by
      intro task hnote hquiet
      have hscan : ∀ m, (scan src note task (.node l cs)).note? = some m → Plain out [m] := by
        intro m hm
        unfold scan at hm
        split at hm
        next d hd =>
          obtain ⟨p, hp, rfl⟩ := Option.map_eq_some_iff.1 hm
          exact hnotes _ (Tree.mem_preorder_self _) d p hd hp
        next => exact hnote m (Task.note?_scan hm)
      have hparts := fun pos stop => plain_rebuildAll pos stop hscan hquiet fun c hc task hnote =>
        ih c hc (ht.of_child hc)
          (fun n hn => hnotes n (Tree.mem_preorder_of_mem_children hc hn)) task hnote
      refine (hparts _ _).node fun u halike hplaced => ?_
      exact declaration?_eq_none_of_placed ht halike hplaced
    rw [rebuild]
    cases task with
    | replaced m => exact hnote m rfl
    | followed m =>
      have hinner := hcopy (.followed m) hnote fun x hx => hquiet x (by
        rw [marks]
        exact List.mem_append_left _ hx)
      exact hinner.cons (hnote m rfl)
    | wrapped m =>
      -- a bare parameter is left out and written again as it stands
      have hplain : (Tree.node l cs).Plain src := hquiet _ (by simp [marks, Task.frame])
      have hself : Plain out [(Tree.node l cs).concrete src] := by
        rw [← rebuild_of_plain note hplain]
        refine hcopy .keep (fun m hm => by cases hm) fun x hx => ?_
        have hx : skipped x ∈ marks src (scan src note) .keep (.node l cs) := hx
        exact hplain.of_mem (mem_preorder_of_skipped hx)
      exact plain_parameterList (hself.playing .pattern) (hnote m rfl)
    | _ => exact hcopy _ hnote hquiet

/-! ### Copies of props -/

/-- A copy of a tree that declares nothing declares nothing. -/
theorem plain_concrete {t : Tree} (ht : Grammatical src t) (hp : t.Plain src) :
    Plain out [t.concrete src] := by
  rw [← rebuild_of_plain (plainNote src) hp]
  refine plain_rebuild ht (fun n hn d p hd => ?_) .keep (fun m hm => by cases hm) fun x hx => ?_
  · cases (hp n hn).symm.trans hd
  · exact hp.of_mem (mem_preorder_of_skipped hx)

theorem Concrete.plain_joined {between ps : List Concrete} (hb : Plain out between)
    (hps : ∀ p ∈ ps, Plain out [p]) : Plain out (joined between ps) := by
  induction ps with
  | nil => exact plain_nil out
  | cons p ps ih =>
    have hp := hps p List.mem_cons_self
    have hrest := ih fun q hq => hps q (List.mem_cons_of_mem _ hq)
    cases ps with
    | nil => exact hp
    | cons q ps => exact hp.cons (hb.append hrest)

theorem Concrete.plain_intersectAll {ps : List Concrete} (hps : ∀ p ∈ ps, Plain out [p]) :
    Plain out [intersectAll ps] := by
  cases ps with
  | nil => exact plain_gap out []
  | cons p ps =>
    show Plain out [ps.foldl intersect p]
    induction ps generalizing p with
    | nil => exact hps p List.mem_cons_self
    | cons q ps ih =>
      -- the first two members count as one from here on
      refine ih (intersect p q) fun r hr => ?_
      rcases List.mem_cons.1 hr with rfl | hr
      · have hpair : Plain out [p, space, token "&", space, q] :=
          (hps p (by simp)).cons ((plain_gap out _).cons ((plain_token out _).cons
            ((plain_gap out _).cons (hps q (by simp)))))
        exact hpair.node_of_kind (by simp)
      · exact hps r (by simp [hr])

theorem plain_objectCopy {t : Tree} (ht : Grammatical src t) (hp : t.Plain src)
    (hk : t.kind = .objectType) : Plain out [objectCopy src t] := by
  unfold objectCopy
  split
  · exact plain_concrete ht hp
  · have hmembers : ∀ m ∈ t.properChildren.map (Tree.concrete src), Plain out [m] := by
      intro m hm
      obtain ⟨c, hc, rfl⟩ := List.mem_map.1 hm
      have hmem := (List.mem_filter.1 hc).1
      exact plain_concrete (ht.of_child hmem) (hp.of_mem (Tree.child_mem_preorder hmem))
    have hpad : Plain out (if Literal.isPadded src t then [space] else []) := by
      split
      · exact plain_gap out _
      · exact plain_nil out
    have hseparator : Plain out [(Separator.ofTree t).token, space] := by
      refine Plain.cons ?_ (plain_gap out _)
      cases Separator.ofTree t <;> exact plain_token out _
    have hbody := plain_joined hseparator hmembers
    have hkind : t.label.kind ≠ .variableDeclarator := by
      rw [show t.label.kind = .objectType from hk]
      decide
    refine Plain.node_of_kind ?_ hkind
    split
    · exact (plain_token out _).cons (plain_token out _)
    · exact ((((plain_token out _).append hpad).append hbody).append hpad).append
        (plain_token out _)

/-- The annotation for props in which nothing is declared declares nothing. -/
theorem plain_propsNote {p : Tree} (ht : Grammatical src p) (hp : p.Plain src) :
    Plain out [propsNote src p] := by
  have hcopy : Plain out [propsCopy src p] := by
    unfold propsCopy
    split
    next hk => exact plain_objectCopy ht hp hk
    next hk =>
      split
      · exact plain_concrete ht hp
      · refine plain_intersectAll fun m hm => ?_
        obtain ⟨c, hc, rfl⟩ := List.mem_map.1 hm
        have hmem := Tree.mem_preorder_of_mem_flatten hc
        unfold memberCopy
        split
        next hck => exact plain_objectCopy (ht.of_mem hmem) (hp.of_mem hmem) hck
        next => exact plain_concrete (ht.of_mem hmem) (hp.of_mem hmem)
    next => exact plain_concrete ht hp
  exact ((plain_token out _).cons ((plain_gap out _).cons hcopy)).node_of_kind (by simp)

end Walk

/-! ### The carried tree -/

variable {src out : Text} {tree : Tree} {parts : List (List Edit)}

/-- If no edits clash, nothing is declared in the props of a component. -/
theorem plain_props {n p : Tree} {d : Declaration} (ht : tree.Parsed)
    (h : Judged src (declarations src tree) parts) (hapart : parts.flatten.Pairwise Edit.Apart)
    (hn : n ∈ tree.preorder) (hd : declaration? src n = some d) (hp : d.props = some p) :
    p.Plain src := by
  refine Tree.plain_of_forall_ne fun m hm d' hd' => ?_
  have hperm := h.perm_edits (annotates_plainNote src tree) ht
  obtain ⟨es, hes⟩ := h.exists_edits d (mem_declarations.2 ⟨n, hn, hd⟩)
  rw [alone_eq_edits] at hes
  obtain ⟨type, leading, hdeclared⟩ := declaration?_eq_some_iff.1 hd
  refine not_apart_of_uproots ht hn hd hd' hes ⟨d.ascription, .inl rfl, ?_⟩
    ((Edit.pairwise_apart_perm hperm).1 hapart)
  rw [declarator_of_declaration? hd']
  exact Tree.mem_preorder_trans hm (hdeclared.props_mem hp)

/-- **A converted source has nothing left to convert.**  The walk over the tree, with copies of the props
at the parameters, spells the converted text; laid out in it, it is a tree in which no component is
declared, so converting it gives nothing. -/
theorem carried_converted (ht : tree.Parsed) (hx : tree.Lexical) (hb : tree.OnBoundaries src)
    (h : transform src tree = .ok (some out)) :
    ∃ carried, treesAll 0 (document src (propsNote src) tree) = [carried] ∧
      textAll (document src (propsNote src) tree) = out ∧
      declarations out carried = [] ∧ transform out carried = .ok none := by
  have hnote := annotates_propsNote ht.spaced hb
  have hgrammatical : Grammatical src tree := ⟨ht, hx, hb⟩
  have hout := eq_textAll_document hnote ht hb h
  obtain ⟨parts, hparts, hedit⟩ := exists_judged_of_transform_eq_ok h
  have hapart := Text.apart_of_edit_eq_ok hedit
  have hplaced := placed_self (document src (propsNote src) tree)
  rw [← hout] at hplaced
  have hwalk : Plain out (rebuild src (propsNote src) .keep tree) := by
    refine plain_rebuild hgrammatical (fun n hn d p hd hp => ?_) .keep (fun m hm => by cases hm)
      (hparts.plain hnote ht hapart)
    obtain ⟨type, leading, hdeclared⟩ := declaration?_eq_some_iff.1 hd
    have hmem := Tree.mem_preorder_trans (hdeclared.props_mem hp) (Tree.mem_preorder_trans
      (Tree.child_mem_preorder (Tree.mem_of_field? hdeclared.ascription)) hn)
    exact plain_propsNote (hgrammatical.of_mem hmem) (plain_props ht hparts hapart hn hd hp)
  -- around the tree there are only gaps
  obtain ⟨vs, ws, hus, hgap, hrest⟩ := hplaced.cons
  obtain ⟨xs, ys, rfl, hxs, hys⟩ := hrest.append
  obtain rfl := hgap.gap
  obtain rfl := hys.gap
  obtain ⟨carried, rfl, hlabel, -⟩ := (rebuild_keep tree ▸ hxs).node
  have hnone := declarations_eq_nil_iff.2 (hwalk _ hxs carried List.mem_cons_self)
  have herror : carried.label.hasError = false :=
    hlabel.hasError.trans (hasError_of_transform_eq_ok h)
  exact ⟨carried, by simpa using hus, hout.symm, hnone, transform_of_no_declarations herror hnone⟩

/-- Once `nested` is converted, neither of its components is found again. -/
theorem nested_carried :
    nested.tree.Parsed ∧ nested.tree.Lexical ∧ nested.tree.OnBoundaries nested.text ∧
    transform nested.text nested.tree = .ok (some nestedConverted) ∧ ∃ carried,
      treesAll 0 (document nested.text (propsNote nested.text) nested.tree) = [carried] ∧
      textAll (document nested.text (propsNote nested.text) nested.tree) = nestedConverted ∧
      declarations nestedConverted carried = [] ∧ transform nestedConverted carried = .ok none := by
  have ht : nested.tree.Parsed := ⟨by decide, by decide, by decide⟩
  have hx : nested.tree.Lexical := ⟨by decide, by decide, by decide, by decide⟩
  have hb : nested.tree.OnBoundaries nested.text := by decide
  exact ⟨ht, hx, hb, transform_nested, carried_converted ht hx hb transform_nested⟩

end PlainComponents
