import Mathlib
import PlainComponents.Proofs.Component.Shapes

/-!
# Where a fault is reported

A tree carries flags that say below which nodes there are faults.  The search for the first fault follows
the first flagged child at every level and never comes back.  It finds the right node if the flags can be
relied on (`Tree.Flagged`):

* following the flags from any node gives the first fault of its subtree in reading order
  (`Tree.firstFault?_eq_find?`);
* nodes come in the order of their starts (`Tree.WellSpaced.pairwise_start`), so no fault starts earlier;
* nothing else makes a conversion fail with a fault (`transform_eq_fault_iff`), so the offset that is
  reported is the least one (`transform_eq_fault_iff_isLeast`).
-/

namespace PlainComponents

namespace Tree

variable {t n fault : Tree}

/-- Everywhere in the tree, the error flag is set exactly on the nodes that are faults or have one below
them. -/
def Flagged (t : Tree) : Prop :=
  ∀ n ∈ t.preorder, n.label.hasError = true ↔ ∃ m ∈ n.preorder, m.isFault = true

instance (t : Tree) : Decidable t.Flagged :=
  inferInstanceAs (Decidable (∀ n ∈ t.preorder, _))

theorem Flagged.of_mem (h : t.Flagged) (hn : n ∈ t.preorder) : n.Flagged :=
  fun m hm => h m (mem_preorder_trans hm hn)

theorem Flagged.find?_isSome (h : t.Flagged) :
    (t.preorder.find? isFault).isSome = t.label.hasError := by
  rw [Bool.eq_iff_iff, List.find?_isSome]
  exact (h t t.mem_preorder_self).symm

/-! ### Following the flags -/

/-- Along a list of children, the first flagged one has the first fault. -/
theorem firstFaultIn?_eq_find? {cs : List Tree} (hflags : ∀ c ∈ cs, c.Flagged)
    (hfirst : ∀ c ∈ cs, c.firstFault? = c.preorder.find? isFault) :
    firstFaultIn? cs = (cs.flatMap preorder).find? isFault := by
  induction cs with
  | nil => rfl
  | cons c cs ih =>
    rw [List.forall_mem_cons] at hflags hfirst
    have hsome := hflags.1.find?_isSome
    rw [firstFaultIn?, List.flatMap_cons, List.find?_append]
    split
    next hflag =>
      -- a flagged child has a fault, and later children come after it
      rw [hflag] at hsome
      obtain ⟨fault, hfault⟩ := Option.isSome_iff_exists.1 hsome
      rw [hfirst.1, hfault, Option.some_or]
    next hflag =>
      rw [Bool.not_eq_true] at hflag
      rw [hflag, Option.isSome_eq_false_iff, Option.isNone_iff_eq_none] at hsome
      rw [hsome, Option.none_or]
      exact ih hflags.2 hfirst.2

/-- Following the flags from a node gives the first fault of its subtree in reading order. -/
theorem firstFault?_eq_find? (h : t.Flagged) : t.firstFault? = t.preorder.find? isFault := by
  induction t using inductionOn with
  | node l cs ih =>
    have hchild : ∀ c ∈ cs, c.Flagged := by
      intro c hc
      exact h.of_mem (child_mem_preorder (t := node l cs) hc)
    have hbelow := firstFaultIn?_eq_find? hchild fun c hc => ih c hc (hchild c hc)
    have hsome := h.find?_isSome
    rw [label_node] at hsome
    rw [firstFault?]
    split
    next hflag =>
      rw [Bool.not_eq_true'] at hflag
      rw [hflag, Option.isSome_eq_false_iff, Option.isNone_iff_eq_none] at hsome
      exact hsome.symm
    next hflag =>
      rw [Bool.not_eq_true', Bool.not_eq_false] at hflag
      rw [preorder_node, hflag] at hsome
      rw [preorder_node]
      split
      next hfault =>
        have hself : isFault (node l cs) = true := hfault
        rw [List.find?_cons_of_pos hself]
      next hfault =>
        -- the flag is not due to the node itself, so there is a fault below it
        have hself : ¬ isFault (node l cs) = true := hfault
        rw [List.find?_cons_of_neg hself] at hsome ⊢
        obtain ⟨fault, hfind⟩ := Option.isSome_iff_exists.1 hsome
        rw [hbelow, hfind, Option.getD_some]

/-! ### The least offset -/

/-- No fault starts before the first one. -/
theorem start_le_of_firstFault? (hflags : t.Flagged) (hspaced : t.WellSpaced)
    (h : t.firstFault? = some fault) {m : Tree} (hm : m ∈ t.preorder) (hfault : m.isFault = true) :
    fault.start ≤ m.start := by
  rw [firstFault?_eq_find? hflags, List.find?_eq_some_iff_append] at h
  obtain ⟨-, before, after, hsplit, hbefore⟩ := h
  have hsorted := hspaced.pairwise_start
  rw [hsplit] at hm hsorted
  obtain ⟨-, hsorted, -⟩ := List.pairwise_append.1 hsorted
  rcases List.mem_append.1 hm with hm | hm
  · have hnone := hbefore m hm
    rw [hfault] at hnone
    cases hnone
  · rcases List.mem_cons.1 hm with rfl | hm
    · exact Nat.le_refl _
    · exact (List.pairwise_cons.1 hsorted).1 m hm

/-- A fault is found exactly if there is one. -/
theorem exists_firstFault?_iff (hflags : t.Flagged) :
    (∃ fault, t.firstFault? = some fault) ↔ ∃ m ∈ t.preorder, m.isFault = true := by
  rw [firstFault?_eq_find? hflags, ← Option.isSome_iff_exists, List.find?_isSome]

/-- The offsets where the faults of a tree start. -/
def faultStarts (t : Tree) : Set Nat :=
  { start | ∃ m ∈ t.preorder, m.isFault = true ∧ m.start = start }

theorem isLeast_start_of_firstFault? (hflags : t.Flagged) (hspaced : t.WellSpaced)
    (h : t.firstFault? = some fault) : IsLeast t.faultStarts fault.start := by
  have hfind := h
  rw [firstFault?_eq_find? hflags] at hfind
  constructor
  · exact ⟨fault, List.mem_of_find?_eq_some hfind, List.find?_some hfind, rfl⟩
  · rintro start ⟨m, hm, hfault, rfl⟩
    exact start_le_of_firstFault? hflags hspaced h hm hfault

end Tree

/-! ### Faults of a conversion -/

section Conversion

variable {src : Text} {tree : Tree} {offset : Nat}

/-- Components are never reported as faults. -/
theorem alone_ne_fault (d : Declaration) : d.alone src ≠ .error (.fault offset) := by
  intro h
  rw [Declaration.alone_eq_edits] at h
  obtain ⟨role, n, -, hfailure⟩ := ((d.verdict_edits src).error _).1 h
  cases hfailure

theorem transform_ne_fault (h : tree.label.hasError = false) :
    transform src tree ≠ .error (.fault offset) := by
  by_cases hds : declarations src tree = []
  · rw [transform_of_no_declarations h hds]
    intro heq
    cases heq
  · rw [transform_of_declarations h hds]
    rcases judged_or_fails src (declarations src tree) with
      ⟨parts, hparts⟩ | ⟨before, d, after, failure, hsplit, hbefore, hd⟩
    · rw [convertDeclarations_of_ok hparts]
      cases src.edit parts.flatten with
      | ok out => exact fun heq => by cases heq
      | error e => exact fun heq => by cases heq
    · rw [hsplit, convertDeclarations_of_error after hbefore hd]
      intro heq
      cases heq
      exact alone_ne_fault d hd

/-- A conversion fails with a fault exactly if the search finds one, and reports where it starts. -/
theorem transform_eq_fault_iff : transform src tree = .error (.fault offset) ↔
    ∃ fault, tree.firstFault? = some fault ∧ fault.start = offset := by
  constructor
  · intro h
    have hflag : tree.label.hasError = true := by
      by_contra hflag
      exact transform_ne_fault (Bool.not_eq_true _ ▸ hflag) h
    obtain ⟨fault, hfault⟩ := firstFault?_of_hasError hflag
    rw [transform, hfault] at h
    cases h
    exact ⟨fault, hfault, rfl⟩
  · rintro ⟨fault, hfault, rfl⟩
    rw [transform, hfault]

/-- A conversion fails with a fault exactly if the tree has one. -/
theorem exists_transform_eq_fault_iff (hflags : tree.Flagged) :
    (∃ offset, transform src tree = .error (.fault offset)) ↔
      ∃ m ∈ tree.preorder, m.isFault = true := by
  rw [← Tree.exists_firstFault?_iff hflags]
  constructor
  · rintro ⟨offset, h⟩
    obtain ⟨fault, hfault, -⟩ := transform_eq_fault_iff.1 h
    exact ⟨fault, hfault⟩
  · rintro ⟨fault, hfault⟩
    exact ⟨fault.start, transform_eq_fault_iff.2 ⟨fault, hfault, rfl⟩⟩

/-- The offset that is reported is the least one where a fault starts. -/
theorem transform_eq_fault_iff_isLeast (hflags : tree.Flagged) (hspaced : tree.WellSpaced) :
    transform src tree = .error (.fault offset) ↔ IsLeast tree.faultStarts offset := by
  rw [transform_eq_fault_iff]
  constructor
  · rintro ⟨fault, hfault, rfl⟩
    exact Tree.isLeast_start_of_firstFault? hflags hspaced hfault
  · intro h
    obtain ⟨m, hm, hmfault, -⟩ := h.1
    obtain ⟨fault, hfault⟩ := (Tree.exists_firstFault?_iff hflags).2 ⟨m, hm, hmfault⟩
    have hleast := Tree.isLeast_start_of_firstFault? hflags hspaced hfault
    exact ⟨fault, hfault, hleast.unique h⟩

end Conversion

open PlainComponents.Tree in
/-- **A fault is reported at the earliest place.**  If the error flags can be relied on, the search from
any node ends with nothing if there is no fault at or below it, and with the first fault in reading order
otherwise.  If spans are well spaced too, no fault starts earlier.  So a conversion fails with a fault
exactly if the tree has one, and the offset is the least start of all faults. -/
theorem firstFault?_earliest (tree : Tree) (hflags : tree.Flagged) :
    (∀ n ∈ tree.preorder,
      (n.firstFault? = none ↔ ∀ m ∈ n.preorder, m.isFault = false) ∧
      (∀ fault, n.firstFault? = some fault ↔ fault.isFault = true ∧ ∃ before after,
        n.preorder = before ++ fault :: after ∧ ∀ b ∈ before, b.isFault = false) ∧
      (n.WellSpaced → ∀ fault, n.firstFault? = some fault →
        ∀ m ∈ n.preorder, m.isFault = true → fault.start ≤ m.start)) ∧
    ∀ src, ((∃ offset, transform src tree = .error (.fault offset)) ↔
        ∃ m ∈ tree.preorder, m.isFault = true) ∧
      (tree.WellSpaced → ∀ offset, transform src tree = .error (.fault offset) ↔
        IsLeast tree.faultStarts offset) := by
  constructor
  · intro n hn
    have hn := hflags.of_mem hn
    refine ⟨?_, ?_, ?_⟩
    · rw [firstFault?_eq_find? hn, List.find?_eq_none]
      simp only [Bool.not_eq_true]
    · intro fault
      rw [firstFault?_eq_find? hn, List.find?_eq_some_iff_append]
      simp only [Bool.not_eq_true']
    · intro hspaced fault hfault m hm
      exact start_le_of_firstFault? hn hspaced hfault hm
  · intro src
    refine ⟨exists_transform_eq_fault_iff hflags, ?_⟩
    intro hspaced offset
    exact transform_eq_fault_iff_isLeast hflags hspaced

open Concrete in
/-- `f(]]` with a missing argument behind the first bracket, where the other brackets are an error and the
last one is an error inside it. -/
def brokenCall : Concrete :=
  node ⟨.callExpression, none, true, false, false, true, 0, 0⟩
    [leaf .identifier none "f", token "(",
      node ⟨.other "arguments", none, true, false, false, true, 0, 0⟩
        [node ⟨.identifier, none, true, false, true, true, 0, 0⟩ []],
      node ⟨.other "ERROR", none, true, true, false, true, 0, 0⟩
        [gap [']'], node ⟨.other "ERROR", none, true, true, false, true, 0, 0⟩ [gap [']']]]]

/-- Two of the three faults of `brokenCall` start at offset 2, and the third at offset 3.  The one that is
found is the missing node, which lies deeper than the error but comes first. -/
theorem brokenCall_earliest :
    brokenCall.tree.Flagged ∧ brokenCall.tree.WellSpaced ∧ 3 ∈ brokenCall.tree.faultStarts ∧
    (∃ fault, brokenCall.tree.firstFault? = some fault ∧ fault.label.isMissing = true ∧
      ∀ m ∈ brokenCall.tree.preorder, m.isFault = true → fault.start ≤ m.start) ∧
    transform brokenCall.text brokenCall.tree = .error (.fault 2) ∧
    IsLeast brokenCall.tree.faultStarts 2 := by
  have hflags : brokenCall.tree.Flagged := by decide
  have hspaced : brokenCall.tree.WellSpaced := by decide
  have hthree : ∃ m ∈ brokenCall.tree.preorder, m.isFault = true ∧ m.start = 3 := by decide
  have hfails : transform brokenCall.text brokenCall.tree = .error (.fault 2) := rfl
  obtain ⟨hnode, htransform⟩ := firstFault?_earliest brokenCall.tree hflags
  obtain ⟨-, -, hearliest⟩ := hnode _ (Tree.mem_preorder_self _)
  obtain ⟨fault, hfault, hmissing⟩ : ∃ fault, brokenCall.tree.firstFault? = some fault ∧
      fault.label.isMissing = true := ⟨_, rfl, rfl⟩
  exact ⟨hflags, hspaced, hthree, ⟨fault, hfault, hmissing, hearliest hspaced fault hfault⟩, hfails,
    ((htransform brokenCall.text).2 hspaced 2).1 hfails⟩

end PlainComponents
