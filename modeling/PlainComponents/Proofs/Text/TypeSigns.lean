import Mathlib
import PlainComponents.Proofs.Text.Splice

/-!
# Counting type signs

A colon introduces a type, and an opening angle bracket introduces the arguments of one.  The number of
these two signs in a text, `Text.typeSigns`, is a size that conversions make smaller, although they may
make a text longer.  This module does the bookkeeping for any edits:

* joining texts adds up their signs (`typeSigns_append`, `typeSigns_joinWith`);
* carrying out edits keeps the balance of the signs that the texts of the edits bring (`Edit.added`) and
  those that stand in their ranges (`Edit.removed`): `Text.typeSigns_edit`.
-/

namespace PlainComponents

namespace Text

/-- The bytes `:` and `<`. -/
def isTypeSign (b : UInt8) : Bool :=
  b = 0x3a || b = 0x3c

/-- The number of `:` and `<` bytes. -/
def typeSigns (t : Text) : Nat :=
  (encode t).countP isTypeSign

@[simp] theorem typeSigns_nil : typeSigns [] = 0 := rfl

@[simp] theorem typeSigns_append (s t : Text) : typeSigns (s ++ t) = typeSigns s + typeSigns t := by
  simp only [typeSigns, encode, List.flatMap_append, List.countP_append]

theorem typeSigns_joinWith {between : Text} (h : typeSigns between = 0) (ts : List Text) :
    typeSigns (joinWith between ts) = (ts.map typeSigns).sum := by
  induction ts with
  | nil => rfl
  | cons t ts ih =>
    cases ts with
    | nil => simp [joinWith]
    | cons u ts =>
      rw [joinWith, typeSigns_append, typeSigns_append, h, ih, Nat.add_zero]
      rfl

end Text

/-! ### The balance of edits -/

namespace Edit

open Text

/-- The signs in the texts of the edits. -/
def added (es : List Edit) : Nat :=
  (es.map fun e => e.text.typeSigns).sum

/-- The signs in the ranges of the edits. -/
def removed (src : Text) (es : List Edit) : Nat :=
  (es.map fun e => (src.slice e.start e.stop).typeSigns).sum

@[simp] theorem added_nil : added [] = 0 := rfl

@[simp] theorem added_cons (e : Edit) (es : List Edit) :
    added (e :: es) = e.text.typeSigns + added es := by
  simp only [added, List.map_cons, List.sum_cons]

@[simp] theorem added_append (es fs : List Edit) : added (es ++ fs) = added es + added fs := by
  simp only [added, List.map_append, List.sum_append]

@[simp] theorem removed_nil (src : Text) : removed src [] = 0 := rfl

@[simp] theorem removed_cons (src : Text) (e : Edit) (es : List Edit) :
    removed src (e :: es) = (src.slice e.start e.stop).typeSigns + removed src es := by
  simp only [removed, List.map_cons, List.sum_cons]

@[simp] theorem removed_append (src : Text) (es fs : List Edit) :
    removed src (es ++ fs) = removed src es + removed src fs := by
  simp only [removed, List.map_append, List.sum_append]

theorem added_perm {es fs : List Edit} (h : es.Perm fs) : added es = added fs :=
  (h.map _).sum_eq

theorem removed_perm (src : Text) {es fs : List Edit} (h : es.Perm fs) :
    removed src es = removed src fs :=
  (h.map _).sum_eq

/-- A splice has the signs of the source, less those in the ranges, and those of the texts. -/
theorem typeSigns_splice {src : Text} {pos stop : Nat} {es : List Edit} (h : Fits pos es stop)
    (hb : OnBoundaries src es) (hpos : src.isBoundary pos) (hstop : src.isBoundary stop) :
    (splice src pos es stop).typeSigns + removed src es =
      (src.slice pos stop).typeSigns + added es := by
  induction es generalizing pos with
  | nil => rfl
  | cons e es ih =>
    obtain ⟨h₁, h₂, h₃⟩ := h
    obtain ⟨bstart, bstop⟩ := hb e List.mem_cons_self
    have hrest := ih h₃ (fun f hf => hb f (List.mem_cons_of_mem _ hf)) bstop
    -- the source is cut at both ends of the first edit
    rw [← slice_append_slice hpos bstart hstop h₁ (Nat.le_trans h₂ h₃.le),
      ← slice_append_slice bstart bstop hstop h₂ h₃.le]
    simp only [splice, typeSigns_append, added_cons, removed_cons]
    omega

end Edit

open Edit in
/-- What edits do to the number of signs: they take those of their ranges and bring those of their
texts. -/
theorem Text.typeSigns_edit {src out : Text} {es : List Edit} (hb : OnBoundaries src es)
    (hforward : ∀ e ∈ es, e.start ≤ e.stop) (h : src.edit es = .ok out) :
    out.typeSigns + removed src es = src.typeSigns + added es := by
  have hapart := apart_of_edit_eq_ok h
  have hperm := List.mergeSort_perm es notAfter
  have hb' : OnBoundaries src (es.mergeSort notAfter) := fun e he => hb e (hperm.mem_iff.1 he)
  have hfits := fits_ordered hapart hb hforward
  rw [edit_eq_splice_ordered hapart hb hforward] at h
  obtain rfl := Except.ok.inj h
  have hbalance := typeSigns_splice hfits hb' src.isBoundary_zero src.isBoundary_byteLength
  rw [slice_zero_byteLength, added_perm hperm, removed_perm src hperm] at hbalance
  exact hbalance

end PlainComponents
