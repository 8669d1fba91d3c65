import Mathlib
import PlainComponents.Proofs.Text.Splice

/-!
# What edits leave alone

Edits say what changes.  Everything else is found again after them, only at another place: what the edits
before it bring and take moves it (`Edit.moved`).  `Text.slice_edit` says so for any range that no edit
reaches into.

It is proved about splices.  There the range falls into the gap before the first edit or behind that edit,
and in the second case the same holds of the edits that are left.
-/

namespace PlainComponents

namespace Edit

/-! ### Moved offsets -/

/-- The bytes that the edits up to an offset bring. -/
def broughtBefore (es : List Edit) (n : Nat) : Nat :=
  ((es.filter fun e => e.stop ≤ n).map fun e => e.text.byteLength).sum

/-- The bytes that the edits up to an offset take. -/
def takenBefore (es : List Edit) (n : Nat) : Nat :=
  ((es.filter fun e => e.stop ≤ n).map fun e => e.stop - e.start).sum

/-- Where an offset is found after the edits. -/
def moved (es : List Edit) (n : Nat) : Nat :=
  n + broughtBefore es n - takenBefore es n

variable {e : Edit} {es fs : List Edit} {src : Text} {n pos stop i j : Nat}

theorem broughtBefore_cons_of_le (h : e.stop ≤ n) (es : List Edit) :
    broughtBefore (e :: es) n = e.text.byteLength + broughtBefore es n := by
  simp [broughtBefore, h]

theorem takenBefore_cons_of_le (h : e.stop ≤ n) (es : List Edit) :
    takenBefore (e :: es) n = (e.stop - e.start) + takenBefore es n := by
  simp [takenBefore, h]

theorem filter_eq_nil_of_lt (h : ∀ e ∈ es, n < e.stop) : es.filter (fun e => e.stop ≤ n) = [] := by
  rw [List.filter_eq_nil_iff]
  intro e he
  simpa using h e he

theorem moved_perm (h : es.Perm fs) (n : Nat) : moved es n = moved fs n := by
  have hfilter := h.filter fun e => e.stop ≤ n
  rw [moved, moved, broughtBefore, broughtBefore, takenBefore, takenBefore,
    (hfilter.map _).sum_eq, (hfilter.map fun e => e.stop - e.start).sum_eq]

/-! ### Ranges in a splice -/

/-- Edits that follow one another from `pos` on all end behind what ends by `pos`. -/
theorem Fits.lt_stop (h : Fits pos es stop) (hn : n < pos) : ∀ e ∈ es, n < e.stop := by
  intro e he
  have := h.start_le e he
  omega

/-- A range that no edit reaches into stands in the splice, moved by the edits before it. -/
theorem exists_splice_eq_append (h : Fits pos es stop) (hb : OnBoundaries src es)
    (hpos : src.isBoundary pos) (hstop : src.isBoundary stop) (hi : src.isBoundary i)
    (hj : src.isBoundary j) (hpi : pos ≤ i) (hij : i ≤ j) (hjs : j ≤ stop)
    (hclear : ∀ e ∈ es, e.stop ≤ i ∨ j ≤ e.start) :
    ∃ pre post, splice src pos es stop = pre ++ src.slice i j ++ post ∧
      pre.byteLength + takenBefore es i + pos = i + broughtBefore es i := by
  induction es generalizing pos with
  | nil =>
    refine ⟨src.slice pos i, src.slice j stop, ?_, ?_⟩
    · rw [splice, Text.slice_append_slice hpos hi hj hpi hij,
        Text.slice_append_slice hpos hj hstop (Nat.le_trans hpi hij) hjs]
    · rw [Text.byteLength_slice hpos hi hpi]
      simp [takenBefore, broughtBefore]
      omega
  | cons e es ih =>
    obtain ⟨h₁, h₂, h₃⟩ := h
    obtain ⟨hstart, hend⟩ := hb e List.mem_cons_self
    obtain ⟨hce, hclear⟩ := List.forall_mem_cons.1 hclear
    by_cases hei : e.stop ≤ i
    · -- behind the edit the range is one of the splice that is left
      obtain ⟨pre, post, hsplice, hlength⟩ :=
        ih h₃ (fun f hf => hb f (List.mem_cons_of_mem _ hf)) hend hei hclear
      refine ⟨src.slice pos e.start ++ e.text ++ pre, post, ?_, ?_⟩
      · rw [splice, hsplice]
        simp only [List.append_assoc]
      · rw [Text.byteLength_append, Text.byteLength_append, Text.byteLength_slice hpos hstart h₁,
          takenBefore_cons_of_le hei, broughtBefore_cons_of_le hei]
        omega
    · -- otherwise it is part of the gap before the edit
      have hje : j ≤ e.start := hce.resolve_left hei
      have hnone : (e :: es).filter (fun e => e.stop ≤ i) = [] := by
        refine filter_eq_nil_of_lt (List.forall_mem_cons.2 ⟨by omega, ?_⟩)
        exact h₃.lt_stop (by omega)
      refine ⟨src.slice pos i, src.slice j e.start ++ e.text ++ splice src e.stop es stop, ?_, ?_⟩
      · rw [splice, ← Text.slice_append_slice hpos hj hstart (Nat.le_trans hpi hij) hje,
          ← Text.slice_append_slice hpos hi hj hpi hij]
        simp only [List.append_assoc]
      · rw [Text.byteLength_slice hpos hi hpi, takenBefore, broughtBefore, hnone]
        simp
        omega

end Edit

open Edit

/-- **What no edit reaches into is the same afterwards**, at the place to which the edits before it move
it. -/
theorem Text.slice_edit {src out : Text} {es : List Edit} {i j : Nat} (hb : OnBoundaries src es)
    (hforward : ∀ e ∈ es, e.start ≤ e.stop) (h : src.edit es = .ok out) (hi : src.isBoundary i)
    (hj : src.isBoundary j) (hij : i ≤ j) (hclear : ∀ e ∈ es, e.stop ≤ i ∨ j ≤ e.start) :
    out.slice (moved es i) (moved es i + (j - i)) = src.slice i j := by
  have hapart := apart_of_edit_eq_ok h
  have hperm := List.mergeSort_perm es notAfter
  have hfits := fits_ordered hapart hb hforward
  have hb' : OnBoundaries src (es.mergeSort notAfter) := fun e he => hb e (hperm.mem_iff.1 he)
  rw [edit_eq_splice_ordered hapart hb hforward] at h
  obtain rfl := Except.ok.inj h
  obtain ⟨pre, post, hsplice, hlength⟩ := exists_splice_eq_append hfits hb' src.isBoundary_zero
    src.isBoundary_byteLength hi hj (Nat.zero_le _) hij (le_byteLength_of_isBoundary hj)
    fun e he => hclear e (hperm.mem_iff.1 he)
  have hmoved : moved es i = pre.byteLength := by
    rw [← moved_perm hperm, moved]
    omega
  have hslice := slice_append_append pre (src.slice i j) post
  rwa [← hsplice, byteLength_slice hi hj hij, ← hmoved] at hslice

end PlainComponents
