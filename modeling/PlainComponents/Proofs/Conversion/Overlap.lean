import PlainComponents.Proofs.Conversion.Marks
import PlainComponents.Proofs.Conversion.Refinement

/-!
# When conversions clash

Each component of a source may be convertible by itself, and the source as a whole still not be: the
edits of two components may overlap or start at the same place.  `transform_clash_iff` says exactly
when: one of the components is declared inside a type that is taken away for the other, be it the
annotation of its declarator or the annotation of its first parameter.

For one direction, a component in such a type has its removal inside an edit of the other
(`not_apart_of_covers`).  For the other, suppose that no component is declared in a type that goes.
Then the walk meets all the edits, and it meets them in strictly increasing order: `Edit.Ordered`
carries through the walk how far the starts reach, task by task (`ordered_marks`).
-/

namespace PlainComponents

open Declaration Edit Mark

/-! ### Strictly increasing edits -/

/-- The edits start at strictly increasing offsets from `lo` on and before `hi`, each where the one
before it has ended, and the last ends by `stop`. -/
structure Edit.Ordered (lo : Nat) (es : List Edit) (hi stop : Nat) : Prop where
  pairwise : es.Pairwise fun a b => a.start < b.start ∧ a.stop ≤ b.start
  bounds : ∀ e ∈ es, lo ≤ e.start ∧ e.start < hi ∧ e.stop ≤ stop

namespace Edit.Ordered

variable {lo lo' hi hi' stop stop' : Nat} {es fs : List Edit}

theorem nil (lo hi stop : Nat) : Ordered lo [] hi stop where
  pairwise := .nil
  bounds := by simp

theorem single (e : Edit) : Ordered e.start [e] (e.start + 1) e.stop where
  pairwise := List.pairwise_singleton _ _
  bounds := by simp

theorem mono (h : Ordered lo es hi stop) (hlo : lo' ≤ lo) (hhi : hi ≤ hi') (hstop : stop ≤ stop') :
    Ordered lo' es hi' stop' where
  pairwise := h.pairwise
  bounds := by
    intro e he
    have := h.bounds e he
    omega

/-- Edits that reach at most to where others begin may be put before them. -/
theorem append (h : Ordered lo es hi' stop') (h' : Ordered lo' fs hi stop) (hhi : hi' ≤ lo')
    (hstop : stop' ≤ lo') (hlo : lo ≤ lo') (hhi' : hi' ≤ hi) (hstop' : stop' ≤ stop) :
    Ordered lo (es ++ fs) hi stop where
  pairwise := by
    refine List.pairwise_append.2 ⟨h.pairwise, h'.pairwise, fun a ha b hb => ?_⟩
    have h₁ := h.bounds a ha
    have h₂ := h'.bounds b hb
    omega
  bounds := by
    intro e he
    rcases List.mem_append.1 he with he | he
    · have := h.bounds e he
      omega
    · have := h'.bounds e he
      omega

theorem apart (h : Ordered lo es hi stop) : es.Pairwise Apart := by
  refine h.pairwise.imp fun {a b} hab => ?_
  unfold Apart
  omega

end Edit.Ordered

/-! ### How far the edits of a task reach -/

namespace Task

/-- Where the first edit of a task may start: without a task only behind the start of the node. -/
def least (t : Tree) : Task → Nat
  | keep => t.start + 1
  | _ => t.start

/-- Before which offset the edits of a task start. -/
def reach (t : Tree) : Task → Nat
  | parameter _ | followed _ => t.stop + 1
  | replaced _ | wrapped _ => t.start + 1
  | _ => t.stop

/-- Before which offset the edits below a node start. -/
def limit (t : Tree) : Task → Nat
  | parameter _ => t.stop + 1
  | _ => t.stop

theorem start_le_least (task : Task) (t : Tree) : t.start ≤ task.least t := by
  cases task <;> simp [least]

theorem least_le (task : Task) (t : Tree) : task.least t ≤ t.start + 1 := by
  cases task <;> simp [least]

theorem stop_le_limit (task : Task) (t : Tree) : t.stop ≤ task.limit t := by
  cases task <;> simp [limit]

theorem reach_le {t : Tree} (task : Task) (h : t.start ≤ t.stop) : task.reach t ≤ t.stop + 1 := by
  cases task <;> simp [reach, h]

end Task

section Order

variable {src : Text} {note : Tree → Concrete} {plan : Task → Tree → Scan} {cs : List Tree}
  {pos stop hi : Nat}

theorem ordered_marksAll_keep (hs : Tree.Spaced pos cs stop)
    (ih : ∀ c ∈ cs, ∀ task, Ordered (task.least c) (edits (marks src plan task c))
      (task.reach c) c.stop) :
    Ordered (pos + 1) (edits (marksAll src plan .keep cs)) stop stop := by
  induction cs generalizing pos with
  | nil => exact .nil _ _ _
  | cons c cs ihcs =>
    obtain ⟨h₁, h₂, h₃⟩ := hs
    have hle := h₃.le
    have hc := (ih c List.mem_cons_self .keep).mono (Nat.add_le_add_right h₁ 1) (Nat.le_refl _)
      (Nat.le_refl _)
    have hcs := ihcs h₃ fun d hd => ih d (List.mem_cons_of_mem _ hd)
    show Ordered _ (edits (marks src plan .keep c ++ marksAll src plan .keep cs)) _ _
    rw [edits_append]
    exact hc.append hcs (Nat.le_succ _) (Nat.le_succ _) (by omega) hle hle

theorem ordered_marksAll_seek {test : Tree → Bool} {task : Task} (hs : Tree.Spaced pos cs stop)
    (ih : ∀ c ∈ cs, ∀ task, Ordered (task.least c) (edits (marks src plan task c))
      (task.reach c) c.stop)
    (hstop : stop ≤ hi) (hreach : ∀ c, cs.find? test = some c → task.reach c ≤ hi) :
    Ordered pos (edits (marksAll src plan (.seek test task) cs)) hi stop := by
  induction cs generalizing pos with
  | nil => exact .nil _ _ _
  | cons c cs ihcs =>
    obtain ⟨h₁, h₂, h₃⟩ := hs
    have hle := h₃.le
    have ih' := fun d hd => ih d (List.mem_cons_of_mem _ hd)
    by_cases h : test c
    · -- edits of the child may end at its last byte, those behind it start later
      have hr := hreach c (by simp [h])
      have hr' := task.reach_le h₂
      have hc := ih c List.mem_cons_self task
      have hstart := task.start_le_least c
      have hcs := (ordered_marksAll_keep h₃ ih').mono (Nat.le_refl _) hstop (Nat.le_refl _)
      have hstep : (Scan.seek test task).step c = (.visit task, .keep) := by simp [Scan.step, h]
      simp only [marksAll, hstep, edits_append]
      exact (hc.mono (Nat.le_trans h₁ hstart) (Nat.le_refl _) (Nat.le_refl _)).append hcs
        hr' (Nat.le_succ _) (by omega) hr hle
    · have hc := ih c List.mem_cons_self .keep
      have hcs := ihcs h₃ ih' fun d hd => hreach d (by simp [h, hd])
      have hstep : (Scan.seek test task).step c = (.visit .keep, .seek test task) := by
        simp [Scan.step, h]
      simp only [marksAll, hstep, edits_append]
      exact (hc.mono (Nat.le_trans h₁ (Nat.le_succ _)) (Nat.le_refl _) (Nat.le_refl _)).append hcs
        (Nat.le_refl _) (Nat.le_refl _) (by omega) (Nat.le_trans hle hstop) hle

/-- Over a declarator: what stands before the name, the removal, and what the value asks for. -/
theorem ordered_toName {t : Tree} {d : Declaration} (ht : t.Parsed) (hn : t.Delimited)
    (h : declaration? src t = some d) (n : Option Concrete)
    (ih : ∀ c ∈ t.children, ∀ task, Ordered (task.least c) (edits (marks src plan task c))
      (task.reach c) c.stop) :
    Ordered (t.start + 1) (edits (marksAll src plan (.toName n) t.children)) t.stop t.stop := by
  have hbounds := removal_bounds ht h
  obtain ⟨type, leading, hd⟩ := declaration?_eq_some_iff.1 h
  obtain ⟨pre, mid, post, hcs, hpre, hmid, -⟩ := hd.exists_children ht
  have hname := Tree.plays_iff.2 (Tree.field_of_field? hd.name)
  have htype := Tree.plays_iff.2 (Tree.field_of_field? hd.ascription)
  have hne : d.name.start < d.name.stop := by
    simpa [hd.name] using (hn.names t t.mem_preorder_self hd.kind).2
  have hs := ht.spaced.children
  rw [hcs] at hs
  obtain ⟨hspre, -, hs⟩ := hs.split
  obtain ⟨-, -, hspost⟩ := hs.split
  have hle := hspre.le
  have ih' : ∀ c ∈ post, ∀ task, Ordered (task.least c) (edits (marks src plan task c))
      (task.reach c) c.stop := fun c hc => ih c (by simp [hcs, hc])
  have hbefore := ordered_marksAll_keep hspre fun c hc => ih c (by simp [hcs, hc])
  have hin : Ordered (d.name.start + 1) (edits (marks src plan .keep d.name)) d.name.stop
      d.name.stop := ih d.name (by simp [hcs]) .keep
  have hafter : Ordered d.ascription.stop (edits (marksAll src plan (.toValue n) post)) t.stop
      t.stop := by
    cases n with
    | none =>
      have hkeep := ordered_marksAll_keep hspost ih'
      exact hkeep.mono (Nat.le_succ _) (Nat.le_refl _) (Nat.le_refl _)
    | some n =>
      refine ordered_marksAll_seek hspost ih' (Nat.le_refl _) fun c hc => ?_
      exact (hspost.bounds c (List.mem_of_find?_eq_some hc)).2.2
  rw [hcs, marksAll_toName src plan n _ hpre hname, marksAll_toType src plan n _ _ hmid htype]
  simp only [edits_append, edits_map_skipped, edits_cons_skipped, edits_cons_edit, List.nil_append]
  -- the four parts meet at the start of the name, at its end, and at the end of the annotation
  have hremoval := (Ordered.single (.deletion d.name.stop d.ascription.stop)).append hafter
    hbounds.2.2.1 (Nat.le_refl _) (Nat.le_of_lt hbounds.2.2.1) (Nat.le_trans hbounds.2.2.1 hbounds.2.2.2)
    hbounds.2.2.2
  have hrest := hin.append hremoval (Nat.le_refl _) (Nat.le_refl _) hne (by omega) (by omega)
  exact hbefore.append hrest (Nat.le_succ _) (Nat.le_succ _) (by omega) (by omega) (by omega)

/-- The first parameter of a list ends before the list does. -/
theorem stop_lt_of_firstProper? {t c : Tree} (ht : t.Parsed) (hn : t.Delimited)
    (hk : t.kind = .formalParameters) (hc : t.firstProper? = some c) : c.stop < t.stop := by
  have hmem := Tree.mem_of_firstProper? hc
  have hproper := Tree.isProper_of_firstProper? hc
  have hclosed := hn.closed t t.mem_preorder_self hk
  cases hlast : t.children.getLast? with
  | none =>
    rw [List.getLast?_eq_none_iff.1 hlast] at hmem
    cases hmem
  | some last =>
    obtain ⟨cs, hcs⟩ := List.getLast?_eq_some_iff.1 hlast
    obtain ⟨hanonymous, hne⟩ : last.label.named = false ∧ last.start < last.stop := by
      simpa [hlast] using hclosed
    have hs := ht.spaced.children
    rw [hcs] at hs hmem
    obtain ⟨hspaced, -, hle⟩ := hs.split
    rcases List.mem_append.1 hmem with hc | hc
    · have := hspaced.bounds c hc
      have := hle.le
      omega
    · obtain rfl := List.mem_singleton.1 hc
      simp [Tree.isProper, hanonymous] at hproper

/-- A task is handed to at most one child, and what the child does with it stays within the limit. -/
theorem Task.scan_cases {t : Tree} (ht : t.Parsed) (hn : t.Delimited) (task : Task) :
    task.scan t = .keep ∨ ∃ test next, task.scan t = .seek test next ∧ task.least t = t.start ∧
      ∀ c, t.children.find? test = some c → next.reach c ≤ task.limit t := by
  have hbounds : ∀ {test : Tree → Bool} {c : Tree}, t.children.find? test = some c →
      c.start ≤ c.stop ∧ c.stop ≤ t.stop :=
    fun h => (ht.spaced.children.bounds _ (List.mem_of_find?_eq_some h)).2
  cases task with
  | function n =>
    simp only [Task.scan]
    split
    next hf =>
      split
      · -- a bare parameter is not empty, so its edit starts before the function ends
        refine .inr ⟨_, _, rfl, rfl, fun c hc => ?_⟩
        have hbare : t.field? .parameter = some c := hc
        have hne : c.kind = .identifier ∧ c.start < c.stop := by
          simpa [hbare] using hn.bare t t.mem_preorder_self hf
        have := hbounds hc
        simp only [reach, limit]
        omega
      · exact .inr ⟨_, _, rfl, rfl, fun c hc => (hbounds hc).2⟩
    next =>
      split
      · exact .inr ⟨_, _, rfl, rfl, fun c hc => (hbounds hc).2⟩
      · split
        · exact .inr ⟨_, _, rfl, rfl, fun c hc => (hbounds hc).2⟩
        · exact .inl rfl
  | arguments n =>
    simp only [Task.scan]
    split
    · exact .inr ⟨_, _, rfl, rfl, fun c hc => (hbounds hc).2⟩
    · exact .inl rfl
  | list n =>
    simp only [Task.scan]
    split
    next hk => exact .inr ⟨_, _, rfl, rfl, fun c hc => stop_lt_of_firstProper? ht hn hk hc⟩
    next => exact .inl rfl
  | parameter n =>
    -- the annotation may follow the last node of the parameter
    have hreach : ∀ (next : Task) (test : Tree → Bool) (c : Tree),
        t.children.find? test = some c → next.reach c ≤ t.stop + 1 := by
      intro next test c hc
      have h := hbounds hc
      exact Nat.le_trans (next.reach_le h.1) (Nat.succ_le_succ h.2)
    simp only [Task.scan]
    split
    · split
      · exact .inr ⟨_, _, rfl, rfl, hreach _ _⟩
      · split
        · exact .inr ⟨_, _, rfl, rfl, hreach _ _⟩
        · exact .inr ⟨_, _, rfl, rfl, hreach _ _⟩
    · exact .inl rfl
  | _ => exact .inl rfl

/-- Below a node the edits are in order, whatever the node is asked to do. -/
theorem ordered_scan (src : Text) (note : Tree → Concrete) {t : Tree} (ht : t.Parsed)
    (hn : t.Delimited) (task : Task)
    (ih : ∀ c ∈ t.children, ∀ task, Ordered (task.least c) (edits (marks src plan task c))
      (task.reach c) c.stop) :
    Ordered (task.least t) (edits (marksAll src plan (scan src note task t) t.children))
      (task.limit t) t.stop := by
  have hs := ht.spaced.children
  have hlimit := task.stop_le_limit t
  unfold scan
  split
  next d hd =>
    exact (ordered_toName ht hn hd _ ih).mono (task.least_le t) hlimit (Nat.le_refl _)
  next =>
    rcases task.scan_cases ht hn with hkeep | ⟨test, next, hseek, hleast, hreach⟩
    · rw [hkeep]
      exact (ordered_marksAll_keep hs ih).mono (task.least_le t) hlimit (Nat.le_refl _)
    · rw [hseek, hleast]
      exact ordered_marksAll_seek hs ih hlimit hreach

/-- **The walk meets the edits in strictly increasing order.** -/
theorem ordered_marks {t : Tree} (ht : t.Parsed) (hn : t.Delimited) (task : Task) :
    Ordered (task.least t) (edits (marks src (scan src note) task t)) (task.reach t) t.stop := by
  induction t using Tree.inductionOn generalizing task with
  | node l cs ih =>
    have hinner := ordered_scan src note ht hn task fun c hc =>
      ih c hc (ht.of_child hc) (hn.of_mem (Tree.child_mem_preorder hc))
    have hle := ht.spaced.le
    rw [marks]
    cases task with
    | replaced n => exact Ordered.single ⟨l.start, l.stop, n.text⟩
    | wrapped n => exact Ordered.single ⟨l.start, l.stop, _⟩
    | followed n =>
      show Ordered _ (edits (_ ++ [_])) _ _
      rw [edits_append]
      exact hinner.append (Ordered.single ⟨l.stop, l.stop, n.text⟩) (Nat.le_refl _) (Nat.le_refl _) hle
        (Nat.le_succ _) (Nat.le_refl _)
    | _ => exact hinner

end Order

/-! ### Types that are taken away -/

/-- The annotation of the first parameter that the props of a component replace. -/
def Declaration.supplanted? (d : Declaration) : Option Tree := do
  let _ ← d.props
  let function ← FunctionNode.find? d.value
  match function.node.field? .parameter with
  | some _ => none
  | none => do
    let list ← function.node.field? .parameters
    let first ← list.firstProper?
    first.field? .type

section Types

variable {src : Text} {note : Tree → Concrete} {t c : Tree} {d : Declaration} {es : List Edit}

theorem supplanted?_eq_some_iff {type : Tree} :
    d.supplanted? = some type ↔ ∃ p f list first, d.props = some p ∧
      FunctionNode.find? d.value = some f ∧ f.node.field? .parameter = none ∧
      f.node.field? .parameters = some list ∧ list.firstProper? = some first ∧
      first.field? .type = some type := by
  unfold supplanted?
  constructor
  · intro h
    obtain ⟨p, hp, h⟩ := Option.bind_eq_some_iff.1 h
    obtain ⟨f, hf, h⟩ := Option.bind_eq_some_iff.1 h
    split at h
    · cases h
    next hbare =>
      obtain ⟨list, hlist, h⟩ := Option.bind_eq_some_iff.1 h
      obtain ⟨first, hfirst, h⟩ := Option.bind_eq_some_iff.1 h
      exact ⟨p, f, list, first, hp, hf, hbare, hlist, hfirst, h⟩
  · rintro ⟨p, f, list, first, hp, hf, hbare, hlist, hfirst, h⟩
    simp [hp, hf, hbare, hlist, hfirst, h]

theorem kind_parameters (ht : d.value.Parsed) {f : FunctionNode} {list : Tree}
    (hf : FunctionNode.find? d.value = some f) (hl : f.node.field? .parameters = some list) :
    list.kind = .formalParameters := by
  simpa [hl] using ht.parameters _ (FunctionNode.mem_preorder_of_find? hf)
    (FunctionNode.isFunction_of_find? hf)

/-- The annotation that the props replace is left out. -/
theorem marks_function_supplanted {p type : Tree} (ht : d.value.Parsed)
    (he : d.edits src = .ok es) (hp : d.props = some p) (hs : d.supplanted? = some type) :
    marks src Task.scan (.function (note p)) d.value =
      [edit ⟨type.start, type.stop, (note p).text⟩, skipped type] := by
  obtain ⟨p', f, list, first, hp', hf, hbare, hl, hfirst, htype⟩ := supplanted?_eq_some_iff.1 hs
  rw [marks_function_of_find? hf, marks_function_list (FunctionNode.isFunction_of_find? hf) hbare
    hl (kind_parameters ht hf hl), hfirst, Option.elim_some]
  refine marks_parameter_typed ?_ htype
  cases edits_eq_ok he with
  | bare hnone => cases hp.symm.trans hnone
  | unused _ _ hf' ha =>
    obtain rfl := Option.some.inj (hf.symm.trans hf')
    obtain ⟨-, list', hl', hnone⟩ := Parameter.annotateFirst_eq_ok_none ha
    obtain rfl := Option.some.inj (hl.symm.trans hl')
    cases hfirst.symm.trans hnone
  | annotated _ _ hf' ha =>
    obtain rfl := Option.some.inj (hf.symm.trans hf')
    rcases Parameter.annotateFirst_eq_ok_some ha with
      ⟨bare, hbare', -⟩ | ⟨-, list', first', pattern, hl', hfirst', hkind, -, -⟩
    · cases hbare.symm.trans hbare'
    · obtain rfl := Option.some.inj (hl.symm.trans hl')
      obtain rfl := Option.some.inj (hfirst.symm.trans hfirst')
      exact hkind

/-- At the function of a component, a bare parameter is left out, which is written again, or the
annotation that the props replace. -/
theorem bare_or_supplanted_of_skipped {p : Tree} (ht : d.value.Parsed) (hp : d.props = some p)
    (he : d.edits src = .ok es)
    (hc : skipped c ∈ marks src Task.scan (.function (note p)) d.value) :
    (∃ f, FunctionNode.find? d.value = some f ∧ f.node.field? .parameter = some c) ∨
      d.supplanted? = some c := by
  cases edits_eq_ok he with
  | bare hnone => cases hp.symm.trans hnone
  | unused _ _ hf ha =>
    obtain ⟨hbare, list, hl, hnone⟩ := Parameter.annotateFirst_eq_ok_none ha
    rw [marks_function_of_find? hf, marks_function_list (FunctionNode.isFunction_of_find? hf) hbare
      hl (kind_parameters ht hf hl), hnone] at hc
    cases hc
  | @annotated _ _ f _ _ _ _ hf ha =>
    have hk := FunctionNode.isFunction_of_find? hf
    rw [marks_function_of_find? hf] at hc
    rcases Parameter.annotateFirst_eq_ok_some ha with
      ⟨bare, hbare, -⟩ | ⟨hbare, list, first, pattern, hl, hfirst, hkind, hpattern, -⟩
    · rw [marks_function_bare hk hbare] at hc
      obtain rfl : c = bare := by simpa using hc
      exact .inl ⟨f, hf, hbare⟩
    · rw [marks_function_list hk hbare hl (kind_parameters ht hf hl), hfirst,
        Option.elim_some] at hc
      cases htype : first.field? .type with
      | some type =>
        rw [marks_parameter_typed hkind htype] at hc
        obtain rfl : c = type := by simpa using hc
        exact .inr (supplanted?_eq_some_iff.2
          ⟨p, f, list, first, hp, hf, hbare, hl, hfirst, htype⟩)
      | none =>
        rw [marks_parameter_untyped hkind htype hpattern, marks_followed] at hc
        simp at hc

/-- A component leaves out leaves, its annotation, and the annotation that its props replace. -/
theorem leaf_or_type_of_skipped (ht : t.Parsed) (hn : t.Delimited) (h : declaration? src t = some d)
    (he : d.edits src = .ok es) (hc : skipped c ∈ componentMarks src note t) :
    c.children = [] ∨ c = d.ascription ∨ d.supplanted? = some c := by
  obtain ⟨type, leading, hd⟩ := declaration?_eq_some_iff.1 h
  obtain ⟨pre, mid, post, hcs, hmid, hmid', hmarks⟩ := exists_componentMarks note ht h
  have hvalue := Tree.mem_of_field? hd.value
  simp only [hmarks, List.mem_append, List.mem_map, List.mem_cons, skipped.injEq, reduceCtorEq,
    false_or] at hc
  rcases hc with ⟨x, hx, rfl⟩ | rfl | hc
  · -- between name and type there is no second name
    have hname : x.plays .name = false :=
      (hn.names t t.mem_preorder_self hd.kind).1.not_plays hcs
        (Tree.plays_iff.2 (Tree.field_of_field? hd.name)) x (by simp [hx])
    have htokens := hn.tokens t t.mem_preorder_self hd.kind x (by simp [hcs, hx])
    simp only [hname, hmid x hx, hmid' x hx, Bool.false_eq_true, false_or] at htokens
    exact .inl (List.isEmpty_iff.1 htokens)
  · exact .inr (.inl rfl)
  · cases hp : d.props with
    | none => simp [hp] at hc
    | some p =>
      rw [hp, Option.elim_some] at hc
      rcases bare_or_supplanted_of_skipped (ht.of_child hvalue) hp he hc with
        ⟨f, hf, hbare⟩ | htype
      · have hfunction := Tree.mem_preorder_of_mem_children hvalue
          (FunctionNode.mem_preorder_of_find? hf)
        have hkind : c.kind = .identifier ∧ c.start < c.stop := by
          simpa [hbare] using hn.bare _ hfunction (FunctionNode.isFunction_of_find? hf)
        have hmem := Tree.mem_preorder_trans
          (Tree.child_mem_preorder (Tree.mem_of_field? hbare)) hfunction
        exact .inl (List.isEmpty_iff.1 (hn.identifiers c hmem hkind.1))
      · exact .inr (.inr htype)

/-- A node comes in reading order before everything below it. -/
theorem Tree.pair_sublist_preorder {n c m t : Tree} (hn : n ∈ t.preorder) (hc : c ∈ n.children)
    (hm : m ∈ c.preorder) : [n, m].Sublist t.preorder := by
  induction t using inductionOn with
  | node l cs ih =>
    rw [preorder_node]
    rcases mem_preorder_node.1 hn with rfl | ⟨b, hb, hnb⟩
    · exact .cons_cons _ (List.singleton_sublist.2 (List.mem_flatMap.2 ⟨c, hc, hm⟩))
    · obtain ⟨as, bs, rfl⟩ := List.append_of_mem hb
      refine .cons _ ((ih b hb hnb).trans ?_)
      rw [List.flatMap_append, List.flatMap_cons]
      exact (List.sublist_append_left _ _).trans (List.sublist_append_right _ _)

/-- A type that is taken away for a component has an edit of the component around it. -/
theorem exists_edit_of_type (ht : t.Parsed) (h : declaration? src t = some d)
    (he : d.edits src = .ok es) (hc : c = d.ascription ∨ d.supplanted? = some c) :
    (∃ child ∈ t.children, c ∈ child.preorder) ∧ ∃ e, edit e ∈ componentMarks src note t ∧
      e.start ≤ c.start ∧ c.stop ≤ e.stop := by
  have hbounds := removal_bounds ht h
  obtain ⟨type, leading, hd⟩ := declaration?_eq_some_iff.1 h
  rcases hc with rfl | hc
  · exact ⟨⟨_, Tree.mem_of_field? hd.ascription, Tree.mem_preorder_self _⟩, d.removal,
      removal_mem_componentMarks note ht h, hbounds.2.1, Nat.le_refl _⟩
  · have hvalue := Tree.mem_of_field? hd.value
    obtain ⟨p, f, list, first, hp, hf, hbare, hlist, hfirst, htype⟩ := supplanted?_eq_some_iff.1 hc
    have hlist := Tree.child_mem_preorder (Tree.mem_of_field? hlist)
    have hfirst := Tree.child_mem_preorder (Tree.mem_of_firstProper? hfirst)
    have htype := Tree.child_mem_preorder (Tree.mem_of_field? htype)
    refine ⟨⟨d.value, hvalue, Tree.mem_preorder_trans htype (Tree.mem_preorder_trans hfirst
      (Tree.mem_preorder_trans hlist (FunctionNode.mem_preorder_of_find? hf)))⟩, ?_⟩
    obtain ⟨pre, mid, post, -, -, -, hmarks⟩ := exists_componentMarks note ht h
    rw [hp, Option.elim_some,
      marks_function_supplanted (ht.of_child hvalue) he hp hc] at hmarks
    refine ⟨⟨c.start, c.stop, (note p).text⟩, ?_, Nat.le_refl _, Nat.le_refl _⟩
    rw [hmarks]
    simp

end Types

/-! ### Clashes -/

section Clash

variable {src : Text} {note : Tree → Concrete} {tree : Tree} {parts : List (List Edit)}

/-- Of the two components, the second is declared in a type that is taken away for the first. -/
def Declaration.Uproots (d d' : Declaration) : Prop :=
  ∃ c, (c = d.ascription ∨ d.supplanted? = some c) ∧ d'.declarator ∈ c.preorder

theorem Declaration.uproots_iff {d d' : Declaration} :
    d.Uproots d' ↔ d'.declarator ∈ d.ascription.preorder ∨
      ∃ type, d.supplanted? = some type ∧ d'.declarator ∈ type.preorder := by
  constructor
  · rintro ⟨c, rfl | hc, hmem⟩
    · exact .inl hmem
    · exact .inr ⟨c, hc, hmem⟩
  · rintro (hmem | ⟨c, hc, hmem⟩)
    · exact ⟨_, .inl rfl, hmem⟩
    · exact ⟨c, .inr hc, hmem⟩

/-- A conversion of components that can be converted one by one clashes if and only if the edits do. -/
theorem transform_clash_iff_not_apart (herror : tree.label.hasError = false)
    (h : Judged src (declarations src tree) parts) :
    (∃ offset, transform src tree = .error (.edits (.clash offset))) ↔
      ¬ parts.flatten.Pairwise Apart := by
  by_cases hds : declarations src tree = []
  · rw [transform_of_no_declarations herror hds]
    rw [hds] at h
    cases h
    simp
  · rw [transform_of_declarations herror hds, convertDeclarations_of_ok h, ← Text.edit_clash_iff]
    cases hedit : src.edit parts.flatten with
    | ok out => simp [Except.mapError, Functor.map, Except.map]
    | error e => simp [Except.mapError, Functor.map, Except.map]

/-- If one component is declared in a type that goes for another, their edits clash. -/
theorem not_apart_of_uproots {n n' : Tree} {d d' : Declaration} {es : List Edit}
    (ht : tree.Parsed) (hn : n ∈ tree.preorder) (hd : declaration? src n = some d)
    (hd' : declaration? src n' = some d') (he : d.edits src = .ok es) (h : d.Uproots d') :
    ¬ (edits (tree.preorder.flatMap (componentMarks src note))).Pairwise Apart := by
  intro hapart
  obtain ⟨c, hc, hmem⟩ := h
  rw [declarator_of_declaration? hd'] at hmem
  have hparsed := ht.of_mem hn
  obtain ⟨⟨child, hchild, hcc⟩, e, hem, hcovers⟩ := exists_edit_of_type hparsed hd he hc
  have hcparsed := hparsed.of_mem (Tree.mem_preorder_of_mem_children hchild hcc)
  have hsub := Tree.pair_sublist_preorder hn hchild (Tree.mem_preorder_trans hmem hcc)
  -- the outer node comes first, and its edit covers all that is declared in the type
  have hpair := hapart.sublist ((hsub.flatMap (componentMarks src note)).filterMap _)
  have hremoval := removal_mem_componentMarks note (hcparsed.of_mem hmem) hd'
  simp only [List.flatMap_cons, List.flatMap_nil, List.append_nil, List.filterMap_append,
    List.pairwise_append] at hpair
  exact not_apart_of_covers hcparsed hmem hd' hcovers
    (hpair.2.2 e (mem_edits.2 hem) d'.removal (mem_edits.2 hremoval))

/-- If no component is declared in a type that goes, none is left out by the walk. -/
theorem plain_of_not_uproots (note : Tree → Concrete) (ht : tree.Parsed) (hn : tree.Delimited)
    (halone : ∀ d ∈ declarations src tree, ∃ es, d.edits src = .ok es)
    (h : ∀ d ∈ declarations src tree, ∀ d' ∈ declarations src tree, ¬ d.Uproots d') :
    ∀ c, skipped c ∈ marks src (scan src note) .keep tree → c.Plain src := by
  intro c hc
  refine Tree.plain_of_forall_ne fun n hnc d' hd' => ?_
  obtain ⟨m, hm, hcm⟩ := exists_component_of_skipped hc
  have hct : c ∈ tree.preorder := mem_preorder_of_skipped hc
  cases hd : declaration? src m with
  | none =>
    rw [componentMarks_of_none hd] at hcm
    cases hcm
  | some d =>
    have hmem := mem_declarations.2 ⟨m, hm, hd⟩
    obtain ⟨es, he⟩ := halone d hmem
    have hmem' := mem_declarations.2 ⟨n, Tree.mem_preorder_trans hnc hct, hd'⟩
    rcases leaf_or_type_of_skipped (ht.of_mem hm) (hn.of_mem hm) hd he hcm with hleaf | hty
    · cases (Tree.plain_of_leaf hleaf n hnc).symm.trans hd'
    · refine h d hmem d' hmem' ⟨c, hty, ?_⟩
      rwa [declarator_of_declaration? hd']

/-- **Conversions clash exactly when one component is declared in a type that is taken away for
another**: in the annotation of its declarator, or in the annotation of its first parameter that the
props replace. -/
theorem transform_clash_iff (herror : tree.label.hasError = false) (ht : tree.Parsed)
    (hn : tree.Delimited) (halone : ∀ d ∈ declarations src tree, ∃ es, d.alone src = .ok es) :
    (∃ offset, transform src tree = .error (.edits (.clash offset))) ↔
      ∃ d ∈ declarations src tree, ∃ d' ∈ declarations src tree,
        d'.declarator ∈ d.ascription.preorder ∨
          ∃ type, d.supplanted? = some type ∧ d'.declarator ∈ type.preorder := by
  obtain ⟨parts, hparts⟩ := exists_judged halone
  have hnote := annotates_plainNote src tree
  have hperm := hparts.perm_edits hnote ht
  have hedits : ∀ d ∈ declarations src tree, ∃ es, d.edits src = .ok es := by
    intro d hd
    rw [← alone_eq_edits]
    exact halone d hd
  rw [transform_clash_iff_not_apart herror hparts, pairwise_apart_perm hperm]
  simp only [← uproots_iff]
  constructor
  · -- if nothing is uprooted, the walk meets all the edits, and in strictly increasing order
    intro hclash
    by_contra hnone
    have hquiet := plain_of_not_uproots (plainNote src) ht hn hedits fun d hd d' hd' h =>
      hnone ⟨d, hd, d', hd', h⟩
    exact hclash ((pairwise_apart_perm (perm_edits_marks hquiet)).1 (ordered_marks ht hn .keep).apart)
  · rintro ⟨d, hd, d', hd', h⟩
    obtain ⟨es, he⟩ := hedits d hd
    obtain ⟨n, hmem, hd⟩ := mem_declarations.1 hd
    obtain ⟨n', -, hd'⟩ := mem_declarations.1 hd'
    exact not_apart_of_uproots ht hmem hd hd' he h

open Concrete in
/-- `const X: FC<P> = (p: (q = () => { const Y: FC = y }) => Q) => p`, where one component is declared in
the annotation of the first parameter of another. -/
def uprooting : Concrete :=
  constants [declarator "X" (application "FC" (leaf .typeIdentifier none "P"))
    (branch .arrowFunction (some .value) [branch .formalParameters (some .parameters) [token "(",
      branch .requiredParameter none [leaf .identifier (some .pattern) "p",
        annotation (branch (.other "function_type") none [
          branch .formalParameters (some .parameters) [token "(",
            branch .requiredParameter none [leaf .identifier (some .pattern) "q", space, token "=",
              space, branch .arrowFunction (some .value) [
                branch .formalParameters (some .parameters) [token "(", token ")"],
                space, token "=>", space,
                branch (.other "statement_block") (some (.other "body")) [token "\x7b", space,
                  branch (.other "lexical_declaration") none [token "const", space,
                    declarator "Y" (leaf .typeIdentifier none "FC")
                      (leaf .identifier (some .value) "y")],
                  space, token "\x7d"]]],
            token ")"],
          space, token "=>", space, leaf .typeIdentifier none "Q"])],
      token ")"], space, token "=>", space, leaf .identifier none "p"])]

/-- The two components of `uprooting` can be converted one by one but not together. -/
theorem uprooting_clashes :
    ∃ offset, transform uprooting.text uprooting.tree = .error (.edits (.clash offset)) := by
  obtain ⟨d, d', hds, hd, hd', k, type, htype, hmem⟩ : ∃ d d',
      declarations uprooting.text uprooting.tree = [d, d'] ∧
      (∃ es, d.alone uprooting.text = .ok es) ∧ (∃ es, d'.alone uprooting.text = .ok es) ∧
      ∃ k type, d.supplanted? = some type ∧ type.preorder[k]? = some d'.declarator := by
    rw [declarations_eq_filterMap]
    exact ⟨_, _, rfl, ⟨_, rfl⟩, ⟨_, rfl⟩, 17, _, rfl, rfl⟩
  refine (transform_clash_iff rfl ⟨by decide, by decide, by decide⟩
    ⟨by decide, by decide, by decide, by decide, by decide⟩ ?_).2
    ⟨d, by simp [hds], d', by simp [hds], .inr ⟨type, htype, List.mem_of_getElem? hmem⟩⟩
  simp only [hds, List.forall_mem_cons, List.not_mem_nil, false_implies, implies_true, and_true]
  exact ⟨hd, hd'⟩

end Clash

end PlainComponents
