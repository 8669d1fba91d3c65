import Mathlib.Data.List.Basic
import Mathlib.Tactic.Choose
import PlainComponents.Proofs.Tree.Preorder

/-!
# Addresses in a tree

Equal subtrees may stand side by side in a tree, so a list of subtrees does not tell which of them it
means, nor whether it has each of them once.  Addresses do: an address is the way to a node from the
top, by the child that is taken at each level.

* `Tree.at?` is the subtree at an address, and `Address.Before` is the order in which addresses are read.
* A `Chart` has an entry for everything that stands somewhere, in reading order.  Since the order is
  strict, no address has two entries (`Chart.nodup`).
* `Tree.survey` is the chart of all nodes of a tree (`Tree.chart_survey`).  Without the addresses it is
  `Tree.preorder`.
* `under` puts charts of the children together to one of the parent, and `Chart.filterMap` reads a chart
  off another one.
-/

namespace PlainComponents

/-- The way to a node from the top of a tree: which child to take at each level. -/
abbrev Address := List Nat

/-- An address is read before those below it and before those to the right of it. -/
def Address.Before : Address → Address → Prop :=
  List.Lex (· < ·)

theorem Address.nil_before_cons (i : Nat) (p : Address) : Before [] (i :: p) :=
  .nil

theorem Address.cons_before_cons_of_lt {i j : Nat} (h : i < j) (p q : Address) :
    Before (i :: p) (j :: q) :=
  .rel h

theorem Address.cons_before_cons {p q : Address} (h : p.Before q) (i : Nat) : Before (i :: p) (i :: q) :=
  .cons h

theorem Address.Before.ne {p q : Address} (h : p.Before q) : p ≠ q := by
  induction h with
  | nil => exact List.cons_ne_nil _ _ ∘ Eq.symm
  | rel hlt =>
    intro heq
    obtain ⟨rfl, -⟩ := List.cons.inj heq
    exact Nat.lt_irrefl _ hlt
  | cons _ ih =>
    intro heq
    exact ih (List.cons.inj heq).2

/-! ### Charts -/

/-- The entries are what stands at the addresses, in reading order. -/
structure Chart {α : Type} (Stands : Address → α → Prop) (entries : List (Address × α)) : Prop where
  ordered : entries.Pairwise fun a b => a.1.Before b.1
  mem_iff : ∀ p a, (p, a) ∈ entries ↔ Stands p a

/-- The list is what stands at the addresses, once for each of them and in reading order. -/
def InReadingOrder {α : Type} (Stands : Address → α → Prop) (xs : List α) : Prop :=
  ∃ entries, Chart Stands entries ∧ entries.map Prod.snd = xs

section Charts

variable {α β : Type} {Stands Stands' : Address → α → Prop} {entries : List (Address × α)} {xs : List α}

theorem Chart.nodup (h : Chart Stands entries) : (entries.map Prod.fst).Nodup := by
  rw [List.Nodup, List.pairwise_map]
  exact h.ordered.imp Address.Before.ne

theorem Chart.congr (h : Chart Stands entries) (hiff : ∀ p a, Stands p a ↔ Stands' p a) :
    Chart Stands' entries where
  ordered := h.ordered
  mem_iff p a := (h.mem_iff p a).trans (hiff p a)

theorem InReadingOrder.congr (h : InReadingOrder Stands xs) (hiff : ∀ p a, Stands p a ↔ Stands' p a) :
    InReadingOrder Stands' xs := by
  obtain ⟨entries, hchart, hxs⟩ := h
  exact ⟨entries, hchart.congr hiff, hxs⟩

/-- Where nothing stands, the empty list is in reading order. -/
theorem inReadingOrder_nil (h : ∀ p a, ¬ Stands p a) : InReadingOrder Stands [] :=
  ⟨[], ⟨.nil, fun p a => by simp [h p a]⟩, rfl⟩

/-- A node by itself stands at the top. -/
theorem inReadingOrder_singleton (x : α) : InReadingOrder (fun p a => p = [] ∧ a = x) [x] := by
  refine ⟨[([], x)], ⟨List.pairwise_singleton _ _, ?_⟩, rfl⟩
  intro p a
  rw [List.mem_singleton, Prod.mk.injEq]

/-- What is read off some of the entries stands where these do. -/
theorem Chart.filterMap (h : Chart Stands entries) (f : α → Option β) :
    InReadingOrder (fun p b => ∃ a, Stands p a ∧ f a = some b)
      ((entries.map Prod.snd).filterMap f) := by
  refine ⟨entries.filterMap fun e => (f e.2).map (Prod.mk e.1), ⟨?_, ?_⟩, ?_⟩
  · refine h.ordered.filterMap _ ?_
    intro e e' hbefore b hb b' hb'
    obtain ⟨-, -, rfl⟩ := Option.map_eq_some_iff.1 hb
    obtain ⟨-, -, rfl⟩ := Option.map_eq_some_iff.1 hb'
    exact hbefore
  · intro p b
    rw [List.mem_filterMap]
    constructor
    · rintro ⟨⟨q, a⟩, hmem, hb⟩
      obtain ⟨b', hb', hpair⟩ := Option.map_eq_some_iff.1 hb
      obtain ⟨rfl, rfl⟩ := Prod.mk.inj hpair
      exact ⟨a, (h.mem_iff q a).1 hmem, hb'⟩
    · rintro ⟨a, ha, hb⟩
      exact ⟨(p, a), (h.mem_iff p a).2 ha, by simp [hb]⟩
  · rw [List.map_filterMap, List.filterMap_map]
    refine List.filterMap_congr fun e _ => ?_
    cases hf : f e.2 <;> simp [hf]

/-! ### From the children to the parent -/

/-- The entries of a subtree that stands at the address `p`. -/
def beneath (p : Address) (entries : List (Address × α)) : List (Address × α) :=
  entries.map (Prod.map (p ++ ·) id)

@[simp] theorem beneath_nil (entries : List (Address × α)) : beneath [] entries = entries :=
  List.map_id entries

theorem beneath_append (p : Address) (entries entries' : List (Address × α)) :
    beneath p (entries ++ entries') = beneath p entries ++ beneath p entries' :=
  List.map_append

theorem beneath_beneath (p q : Address) (entries : List (Address × α)) :
    beneath p (beneath q entries) = beneath (p ++ q) entries := by
  rw [beneath, beneath, beneath, List.map_map]
  refine List.map_congr_left fun e _ => Prod.ext ?_ rfl
  exact (List.append_assoc p q e.1).symm

theorem mem_beneath {p q : Address} {a : α} :
    (q, a) ∈ beneath p entries ↔ ∃ r, q = p ++ r ∧ (r, a) ∈ entries := by
  rw [beneath, List.mem_map]
  constructor
  · rintro ⟨⟨r, b⟩, hmem, hpair⟩
    obtain ⟨rfl, rfl⟩ := Prod.mk.inj hpair
    exact ⟨r, rfl, hmem⟩
  · rintro ⟨r, rfl, hmem⟩
    exact ⟨(r, a), hmem, rfl⟩

/-- The entries of the children, the first of which has the index `i`. -/
def under (f : Tree → List (Address × α)) : Nat → List Tree → List (Address × α)
  | _, [] => []
  | i, c :: cs => beneath [i] (f c) ++ under f (i + 1) cs

variable {f : Tree → List (Address × α)} {cs : List Tree} {i : Nat} {p : Address} {a : α}

theorem mem_under : (p, a) ∈ under f i cs ↔
    ∃ j q c, p = (i + j) :: q ∧ cs[j]? = some c ∧ (q, a) ∈ f c := by
  induction cs generalizing i with
  | nil => simp [under]
  | cons d cs ih =>
    rw [under, List.mem_append, mem_beneath, ih]
    constructor
    · rintro (⟨q, rfl, hmem⟩ | ⟨j, q, c, rfl, hc, hmem⟩)
      · exact ⟨0, q, d, rfl, rfl, hmem⟩
      · exact ⟨j + 1, q, c, by rw [Nat.add_right_comm, Nat.add_assoc], hc, hmem⟩
    · rintro ⟨_ | j, q, c, rfl, hc, hmem⟩
      · obtain rfl : d = c := Option.some.inj hc
        exact .inl ⟨q, rfl, hmem⟩
      · exact .inr ⟨j, q, c, by rw [Nat.add_right_comm, Nat.add_assoc], hc, hmem⟩

theorem pairwise_under (h : ∀ c ∈ cs, (f c).Pairwise fun a b => a.1.Before b.1) :
    (under f i cs).Pairwise fun a b => a.1.Before b.1 := by
  induction cs generalizing i with
  | nil => exact .nil
  | cons c cs ih =>
    rw [List.forall_mem_cons] at h
    rw [under, List.pairwise_append]
    refine ⟨?_, ih h.2, ?_⟩
    · rw [beneath, List.pairwise_map]
      exact h.1.imp fun hbefore => Address.cons_before_cons hbefore i
    · -- what is under a later child has a larger index in front
      rintro ⟨p, a⟩ ha ⟨q, b⟩ hb
      obtain ⟨r, rfl, -⟩ := mem_beneath.1 ha
      obtain ⟨j, r', d, rfl, -, -⟩ := mem_under.1 hb
      exact Address.cons_before_cons_of_lt (by omega) _ _

theorem map_snd_under : (under f i cs).map Prod.snd = cs.flatMap fun c => (f c).map Prod.snd := by
  induction cs generalizing i with
  | nil => rfl
  | cons c cs ih =>
    rw [under, List.map_append, beneath, List.map_map, ih, List.flatMap_cons]
    rfl

/-- What stands at addresses in the children stands below the parent. -/
theorem InReadingOrder.children {Stands : Tree → Address → α → Prop} {g : Tree → List α}
    (h : ∀ c ∈ cs, InReadingOrder (Stands c) (g c)) :
    InReadingOrder (fun p a => ∃ i q c, p = i :: q ∧ cs[i]? = some c ∧ Stands c q a)
      (cs.flatMap g) := by
  have hcharts : ∀ c ∈ cs, ∃ entries, Chart (Stands c) entries ∧ entries.map Prod.snd = g c := h
  choose! f hf using hcharts
  refine ⟨under f 0 cs, ⟨pairwise_under fun c hc => (hf c hc).1.ordered, ?_⟩, ?_⟩
  · intro p a
    rw [mem_under]
    refine exists_congr fun i => exists_congr fun q => exists_congr fun c => ?_
    rw [Nat.zero_add]
    refine and_congr_right fun _ => and_congr_right fun hc => ?_
    exact (hf c (List.mem_of_getElem? hc)).1.mem_iff q a
  · rw [map_snd_under]
    exact List.flatMap_congr fun c hc => (hf c hc).2

end Charts

/-! ### All nodes of a tree -/

namespace Tree

/-- The subtree at an address. -/
def at? : Tree → Address → Option Tree
  | t, [] => some t
  | t, i :: p => t.children[i]?.bind fun c => c.at? p

@[simp] theorem at?_nil (t : Tree) : t.at? [] = some t := rfl

theorem at?_cons (t : Tree) (i : Nat) (p : Address) :
    t.at? (i :: p) = t.children[i]?.bind fun c => c.at? p := rfl

theorem at?_append (t : Tree) (p q : Address) : t.at? (p ++ q) = (t.at? p).bind fun c => c.at? q := by
  induction p generalizing t with
  | nil => rfl
  | cons i p ih =>
    rw [List.cons_append, at?_cons, at?_cons]
    cases t.children[i]? with
    | none => rfl
    | some c => exact ih c

theorem at?_cons_eq_some_iff {t n : Tree} {i : Nat} {p : Address} :
    t.at? (i :: p) = some n ↔ ∃ c, t.children[i]? = some c ∧ c.at? p = some n :=
  Option.bind_eq_some_iff

mutual

/-- All subtrees with their addresses, each before those below it. -/
def survey : Tree → List (Address × Tree)
  | node l cs => ([], node l cs) :: surveyFrom 0 cs

/-- The subtrees of a list of children, the first of which has the index `i`. -/
def surveyFrom : Nat → List Tree → List (Address × Tree)
  | _, [] => []
  | i, c :: cs => beneath [i] c.survey ++ surveyFrom (i + 1) cs

end

theorem surveyFrom_eq_under (i : Nat) (cs : List Tree) : surveyFrom i cs = under survey i cs := by
  induction cs generalizing i with
  | nil => rfl
  | cons c cs ih => rw [surveyFrom, under, ih]

theorem survey_node (l : Label) (cs : List Tree) :
    (node l cs).survey = ([], node l cs) :: under survey 0 cs := by
  rw [survey, surveyFrom_eq_under]

/-- Without the addresses, the nodes are listed as ever. -/
theorem map_snd_survey (t : Tree) : t.survey.map Prod.snd = t.preorder := by
  induction t using inductionOn with
  | node l cs ih =>
    rw [survey_node, List.map_cons, map_snd_under, preorder_node]
    exact congrArg _ (List.flatMap_congr ih)

/-- **The survey of a tree is exact**: it has the node at each address in the tree, and no other entry. -/
theorem chart_survey (t : Tree) : Chart (fun p n => t.at? p = some n) t.survey := by
  induction t using inductionOn with
  | node l cs ih =>
    rw [survey_node]
    constructor
    · refine List.Pairwise.cons ?_ (pairwise_under fun c hc => (ih c hc).ordered)
      rintro ⟨p, n⟩ hmem
      obtain ⟨j, q, c, rfl, -, -⟩ := mem_under.1 hmem
      exact Address.nil_before_cons _ _
    · intro p n
      rw [List.mem_cons, mem_under, Prod.mk.injEq]
      cases p with
      | nil => simp [eq_comm]
      | cons i p =>
        rw [at?_cons_eq_some_iff]
        constructor
        · rintro (⟨h, -⟩ | ⟨j, q, c, haddress, hc, hmem⟩)
          · cases h
          · obtain ⟨rfl, rfl⟩ := List.cons.inj haddress
            rw [Nat.zero_add]
            exact ⟨c, hc, ((ih c (List.mem_of_getElem? hc)).mem_iff p n).1 hmem⟩
        · rintro ⟨c, hc, hn⟩
          have hmem := ((ih c (List.mem_of_getElem? hc)).mem_iff p n).2 hn
          exact .inr ⟨i, p, c, by rw [Nat.zero_add], hc, hmem⟩

end Tree

end PlainComponents
