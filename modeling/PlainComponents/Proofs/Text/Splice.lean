import PlainComponents.Proofs.Text.Offset
import Mathlib.Data.List.Pairwise

/-!
# Edits as one splice

Carrying out edits from the last to the first is a loop over changing texts.  What it computes is
simpler: walk over the source once, copy what lies between the edits and put each edit's text in
place of its range (`Edit.splice`).

* `Edit.Apart` is the symmetric form of "no clash": it does not depend on which of the two edits is
  taken first, so it can be carried along permutations;
* `Text.edit_clash_iff` says that a list of edits is refused exactly if two of its entries are
  not apart, although only neighbours are compared;
* `Text.edit_eq_splice` says that edits that are apart and follow one another are carried out as the
  splice, in whatever order they are given;
* `Text.edit_ne_beyondEnd` says that offsets between characters of the text are never refused for
  lying beyond its end.
-/

namespace PlainComponents

namespace Edit

/-! ### The order of edits -/

theorem notAfter_iff {a b : Edit} :
    a.notAfter b = true ↔ a.start < b.start ∨ (a.start = b.start ∧ a.stop ≤ b.stop) := by
  simp [notAfter]

theorem notAfter_trans (a b c : Edit) (hab : a.notAfter b = true) (hbc : b.notAfter c = true) :
    a.notAfter c = true := by
  rw [notAfter_iff] at *
  omega

theorem notAfter_total (a b : Edit) : (a.notAfter b || b.notAfter a) = true := by
  rw [Bool.or_eq_true, notAfter_iff, notAfter_iff]
  omega

theorem pairwise_ordered (es : List Edit) :
    (es.mergeSort notAfter).Pairwise fun a b => a.notAfter b = true :=
  List.pairwise_mergeSort notAfter_trans notAfter_total es

/-! ### Edits that are apart -/

/-- Neither edit reaches into the other, and they start at different places. -/
def Apart (a b : Edit) : Prop :=
  a.start ≠ b.start ∧ (a.start < b.start → a.stop ≤ b.start) ∧
    (b.start < a.start → b.stop ≤ a.start)

instance (a b : Edit) : Decidable (Apart a b) :=
  inferInstanceAs (Decidable (_ ∧ _ ∧ _))

theorem Apart.symm {a b : Edit} (h : Apart a b) : Apart b a :=
  ⟨h.1.symm, h.2.2, h.2.1⟩

instance : Std.Symm Apart :=
  ⟨fun _ _ h => h.symm⟩

theorem not_clash_iff_apart {a b : Edit} (h : a.notAfter b = true) : ¬ Clash a b ↔ Apart a b := by
  rw [notAfter_iff] at h
  unfold Clash Apart
  omega

/-- In an ordered list it is enough to compare neighbours. -/
theorem firstClash?_eq_none_iff {es : List Edit}
    (hs : es.Pairwise fun a b => a.notAfter b = true) :
    firstClash? es = none ↔ es.Pairwise Apart := by
  induction es with
  | nil => simp [firstClash?]
  | cons a es ih =>
    cases es with
    | nil => simp [firstClash?]
    | cons b es =>
      obtain ⟨ha, hrest⟩ := List.pairwise_cons.1 hs
      have hab := ha b List.mem_cons_self
      rw [firstClash?]
      constructor
      · intro h
        split at h
        · simp at h
        next hc =>
        have hapart := (not_clash_iff_apart hab).1 hc
        have htail := (ih hrest).1 h
        refine List.pairwise_cons.2 ⟨fun c hc' => ?_, htail⟩
        rcases List.mem_cons.1 hc' with rfl | hc'
        · exact hapart
        · -- `b` stands between `a` and every later edit
          have hbc := (List.pairwise_cons.1 htail).1 c hc'
          have hnot := (List.pairwise_cons.1 hrest).1 c hc'
          rw [notAfter_iff] at hab hnot
          unfold Apart at hapart hbc ⊢
          omega
      · intro h
        obtain ⟨hfirst, htail⟩ := List.pairwise_cons.1 h
        rw [if_neg ((not_clash_iff_apart hab).2 (hfirst b List.mem_cons_self))]
        exact (ih hrest).2 htail

theorem pairwise_apart_perm {es fs : List Edit} (h : es.Perm fs) :
    es.Pairwise Apart ↔ fs.Pairwise Apart :=
  h.pairwise_iff fun h => h.symm

/-! ### Splices -/

/-- The source from `pos` to `stop` with each edit's text in place of its range. -/
def splice (src : Text) : Nat → List Edit → Nat → Text
  | pos, [], stop => src.slice pos stop
  | pos, e :: es, stop => src.slice pos e.start ++ e.text ++ splice src e.stop es stop

/-- The edits follow one another between two offsets. -/
def Fits : Nat → List Edit → Nat → Prop
  | pos, [], stop => pos ≤ stop
  | pos, e :: es, stop => pos ≤ e.start ∧ e.start ≤ e.stop ∧ Fits e.stop es stop

/-- The edits start and stop between characters. -/
def OnBoundaries (src : Text) (es : List Edit) : Prop :=
  ∀ e ∈ es, src.isBoundary e.start ∧ src.isBoundary e.stop

theorem Fits.le {pos stop : Nat} {es : List Edit} (h : Fits pos es stop) : pos ≤ stop := by
  induction es generalizing pos with
  | nil => exact h
  | cons e es ih =>
    obtain ⟨h₁, h₂, h₃⟩ := h
    have := ih h₃
    omega

theorem Fits.mono_left {pos pos' stop : Nat} {es : List Edit} (h : Fits pos es stop)
    (hpos : pos' ≤ pos) : Fits pos' es stop := by
  cases es with
  | nil => exact Nat.le_trans hpos h
  | cons e es => exact ⟨Nat.le_trans hpos h.1, h.2⟩

theorem Fits.append {pos mid stop : Nat} {es fs : List Edit} (h : Fits pos es mid)
    (h' : Fits mid fs stop) : Fits pos (es ++ fs) stop := by
  induction es generalizing pos with
  | nil => exact h'.mono_left h
  | cons e es ih => exact ⟨h.1, h.2.1, ih h.2.2⟩

theorem Fits.start_le {pos stop : Nat} {es : List Edit} (h : Fits pos es stop) :
    ∀ e ∈ es, pos ≤ e.start ∧ e.start ≤ e.stop := by
  induction es generalizing pos with
  | nil => simp
  | cons e es ih =>
    obtain ⟨h₁, h₂, h₃⟩ := h
    intro f hf
    rcases List.mem_cons.1 hf with rfl | hf
    · exact ⟨h₁, h₂⟩
    · have := ih h₃ f hf
      omega

/-- Edits that follow one another are in order. -/
theorem Fits.pairwise_notAfter {pos stop : Nat} {es : List Edit} (h : Fits pos es stop) :
    es.Pairwise fun a b => a.notAfter b = true := by
  induction es generalizing pos with
  | nil => exact List.Pairwise.nil
  | cons e es ih =>
    obtain ⟨h₁, h₂, h₃⟩ := h
    refine List.pairwise_cons.2 ⟨fun f hf => ?_, ih h₃⟩
    have := h₃.start_le f hf
    rw [notAfter_iff]
    omega

/-- Edits that are apart, in order and not backwards follow one another. -/
theorem fits_of_apart {pos stop : Nat} {es : List Edit}
    (hs : es.Pairwise fun a b => a.notAfter b = true) (hapart : es.Pairwise Apart)
    (hforward : ∀ e ∈ es, pos ≤ e.start ∧ e.start ≤ e.stop ∧ e.stop ≤ stop) (hle : pos ≤ stop) :
    Fits pos es stop := by
  induction es generalizing pos with
  | nil => exact hle
  | cons e es ih =>
    obtain ⟨hse, hs⟩ := List.pairwise_cons.1 hs
    obtain ⟨hae, hapart⟩ := List.pairwise_cons.1 hapart
    obtain ⟨h₁, h₂, h₃⟩ := hforward e List.mem_cons_self
    refine ⟨h₁, h₂, ih hs hapart ?_ h₃⟩
    intro f hf
    have hf' := hforward f (List.mem_cons_of_mem _ hf)
    have hnot := hse f hf
    have hap := hae f hf
    rw [notAfter_iff] at hnot
    unfold Apart at hap
    omega

/-- Edits of a text that are apart and not backwards, once put in order, follow one another from its
start to its end. -/
theorem fits_ordered {src : Text} {es : List Edit} (hapart : es.Pairwise Apart)
    (hb : OnBoundaries src es) (hforward : ∀ e ∈ es, e.start ≤ e.stop) :
    Fits 0 (es.mergeSort notAfter) src.byteLength := by
  have hperm := List.mergeSort_perm es notAfter
  apply fits_of_apart (pairwise_ordered es) ((pairwise_apart_perm hperm).2 hapart)
  · intro e he
    have hmem := hperm.mem_iff.1 he
    have hstop := Text.le_byteLength_of_isBoundary (hb e hmem).2
    exact ⟨Nat.zero_le _, hforward e hmem, hstop⟩
  · exact Nat.zero_le _

/-- Splices of neighbouring parts of the source join to one. -/
theorem splice_append {src : Text} {pos mid stop : Nat} {es fs : List Edit}
    (hes : Fits pos es mid) (hfs : Fits mid fs stop) (bes : OnBoundaries src es)
    (bfs : OnBoundaries src fs) (hpos : src.isBoundary pos) (hmid : src.isBoundary mid)
    (hstop : src.isBoundary stop) :
    splice src pos es mid ++ splice src mid fs stop = splice src pos (es ++ fs) stop := by
  induction es generalizing pos with
  | nil =>
    have hle : pos ≤ mid := hes
    cases fs with
    | nil => exact Text.slice_append_slice hpos hmid hstop hle hfs
    | cons f fs =>
      obtain ⟨h₁, h₂, h₃⟩ := hfs
      have hf := (bfs f List.mem_cons_self).1
      simp only [splice, List.nil_append]
      rw [← Text.slice_append_slice hpos hmid hf hle h₁]
      simp only [List.append_assoc]
  | cons e es ih =>
    obtain ⟨h₁, h₂, h₃⟩ := hes
    have he := bes e List.mem_cons_self
    have hrest := ih h₃ (fun f hf => bes f (List.mem_cons_of_mem _ hf)) he.2
    simp only [splice, List.cons_append, List.append_assoc]
    rw [hrest]

/-! ### Carrying out is splicing -/

theorem applyAll_eq_splice {src : Text} {pos : Nat} {es : List Edit}
    (h : Fits pos es src.byteLength) (hb : OnBoundaries src es) (hpos : src.isBoundary pos) :
    applyAll es src = some (src.slice 0 pos ++ splice src pos es src.byteLength) := by
  induction es generalizing pos with
  | nil =>
    have := Text.slice_append_slice src.isBoundary_zero hpos src.isBoundary_byteLength
      (Nat.zero_le pos) h
    rw [applyAll, splice, this, Text.slice_zero_byteLength]
  | cons e es ih =>
    obtain ⟨h₁, h₂, h₃⟩ := h
    obtain ⟨hstart, hstop⟩ := hb e List.mem_cons_self
    have hrest := ih h₃ (fun f hf => hb f (List.mem_cons_of_mem _ hf)) hstop
    have hzero := src.isBoundary_zero
    rw [applyAll, hrest, Option.bind_some,
      ← Text.slice_append_slice hzero hstart hstop (Nat.zero_le _) h₂,
      applyTo_append (Text.byteLength_slice hzero hstart (Nat.zero_le _))
        (by rw [Text.byteLength_slice hzero hstart (Nat.zero_le _),
              Text.byteLength_slice hstart hstop h₂]; omega),
      ← Text.slice_append_slice hzero hpos hstart (Nat.zero_le _) h₁, splice]
    simp only [List.append_assoc]

/-- Edits that are in order, apart and on boundaries can be carried out, also where a range runs
backwards, and leave what stands before all of them. -/
theorem exists_applyAll {src : Text} {pos : Nat} {es : List Edit}
    (hs : es.Pairwise fun a b => a.notAfter b = true) (hapart : es.Pairwise Apart)
    (hb : OnBoundaries src es) (hpos : src.isBoundary pos) (hle : ∀ e ∈ es, pos ≤ e.start) :
    ∃ rest, applyAll es src = some (src.slice 0 pos ++ rest) := by
  have hzero := src.isBoundary_zero
  induction es generalizing pos with
  | nil =>
    have := Text.slice_append_slice hzero hpos src.isBoundary_byteLength
      (Nat.zero_le pos) (Text.le_byteLength_of_isBoundary hpos)
    exact ⟨src.slice pos src.byteLength, by rw [this, Text.slice_zero_byteLength, applyAll]⟩
  | cons e es ih =>
    obtain ⟨hstart, hstop⟩ := hb e List.mem_cons_self
    obtain ⟨hse, hs⟩ := List.pairwise_cons.1 hs
    obtain ⟨hae, hapart⟩ := List.pairwise_cons.1 hapart
    have hpe := hle e List.mem_cons_self
    -- the later edits stay clear of both ends of `e`
    have hlater : ∀ f ∈ es, e.start ≤ f.start ∧ e.stop ≤ f.start := by
      intro f hf
      have h₁ := hse f hf
      have h₂ := hae f hf
      rw [notAfter_iff] at h₁
      unfold Apart at h₂
      omega
    have hb' : OnBoundaries src es := fun f hf => hb f (List.mem_cons_of_mem _ hf)
    have hfront := Text.slice_append_slice hzero hpos hstart (Nat.zero_le _) hpe
    rw [applyAll]
    rcases Nat.le_total e.start e.stop with h | h
    · obtain ⟨rest, hrest⟩ := ih hs hapart hb' hstop fun f hf => (hlater f hf).2
      refine ⟨src.slice pos e.start ++ e.text ++ rest, ?_⟩
      rw [hrest, Option.bind_some, ← Text.slice_append_slice hzero hstart hstop (Nat.zero_le _) h,
        applyTo_append (Text.byteLength_slice hzero hstart (Nat.zero_le _))
          (by rw [Text.byteLength_slice hzero hstart (Nat.zero_le _),
                Text.byteLength_slice hstart hstop h]; omega), ← hfront]
      simp only [List.append_assoc]
    · obtain ⟨rest, hrest⟩ := ih hs hapart hb' hstart fun f hf => (hlater f hf).1
      refine ⟨src.slice pos e.start ++ e.text ++ rest, ?_⟩
      rw [hrest, Option.bind_some, ← Text.slice_append_slice hzero hstop hstart (Nat.zero_le _) h,
        applyTo_backward (Text.byteLength_slice hzero hstop (Nat.zero_le _))
          (by rw [Text.byteLength_slice hzero hstop (Nat.zero_le _),
                Text.byteLength_slice hstop hstart h]; omega),
        Text.slice_append_slice hzero hstop hstart (Nat.zero_le _) h, ← hfront]
      simp only [List.append_assoc]

/-- Two orders of the same edits that are apart agree. -/
theorem eq_of_perm_of_apart {es fs : List Edit} (h : es.Perm fs) (hapart : es.Pairwise Apart)
    (hes : es.Pairwise fun a b => a.notAfter b = true)
    (hfs : fs.Pairwise fun a b => a.notAfter b = true) : es = fs := by
  refine h.eq_of_pairwise (fun a b ha hb hab hba => ?_) hes hfs
  by_contra hne
  have hb' : b ∈ es := h.mem_iff.2 hb
  have := hapart.forall ha hb' hne
  rw [notAfter_iff] at hab hba
  unfold Apart at this
  omega

end Edit

namespace Text

open Edit

variable {src : Text} {es fs : List Edit}

theorem firstClash?_ordered_eq_none_iff :
    firstClash? (es.mergeSort notAfter) = none ↔ es.Pairwise Apart := by
  rw [firstClash?_eq_none_iff (pairwise_ordered es)]
  exact pairwise_apart_perm (List.mergeSort_perm es notAfter)

/-- Edits that are apart are carried out, unless an offset lies beyond the end. -/
theorem edit_of_apart (h : es.Pairwise Apart) :
    src.edit es = (applyAll (es.mergeSort notAfter) src).elim (.error .beyondEnd) .ok := by
  have hnone := firstClash?_ordered_eq_none_iff.2 h
  unfold Text.edit
  dsimp only
  rw [hnone]
  cases applyAll (es.mergeSort notAfter) src <;> rfl

theorem edit_of_not_apart (src : Text) (h : ¬ es.Pairwise Apart) :
    ∃ offset, src.edit es = .error (.clash offset) := by
  rw [← firstClash?_ordered_eq_none_iff] at h
  obtain ⟨offset, ho⟩ := Option.ne_none_iff_exists'.1 h
  exact ⟨offset, by simp only [Text.edit, ho]⟩

/-- A list of edits is refused for a clash exactly if two of them are not apart. -/
theorem edit_clash_iff :
    (∃ offset, src.edit es = .error (.clash offset)) ↔ ¬ es.Pairwise Apart := by
  refine ⟨?_, edit_of_not_apart src⟩
  rintro ⟨offset, ho⟩ hapart
  rw [edit_of_apart hapart] at ho
  cases happly : applyAll (es.mergeSort notAfter) src <;> rw [happly] at ho <;> cases ho

theorem apart_of_edit_eq_ok {out : Text} (h : src.edit es = .ok out) : es.Pairwise Apart := by
  by_contra hn
  obtain ⟨offset, ho⟩ := edit_of_not_apart src hn
  rw [h] at ho
  cases ho

/-- Edits that are apart and follow one another are carried out as a splice, in whatever order they
are given. -/
theorem edit_eq_splice (hapart : es.Pairwise Apart) (hperm : es.Perm fs)
    (hfits : Fits 0 fs src.byteLength) (hb : OnBoundaries src fs) :
    src.edit es = .ok (splice src 0 fs src.byteLength) := by
  have hsort : es.mergeSort notAfter = fs := by
    have h := List.mergeSort_perm es notAfter
    exact eq_of_perm_of_apart (h.trans hperm) ((pairwise_apart_perm h).2 hapart)
      (pairwise_ordered es) hfits.pairwise_notAfter
  have happly := applyAll_eq_splice hfits hb src.isBoundary_zero
  rw [slice_self, List.nil_append] at happly
  rw [edit_of_apart hapart, hsort, happly, Option.elim_some]

/-- Edits that are apart, on boundaries and not backwards are carried out as the splice of the edits put
in order. -/
theorem edit_eq_splice_ordered (hapart : es.Pairwise Apart) (hb : OnBoundaries src es)
    (hforward : ∀ e ∈ es, e.start ≤ e.stop) :
    src.edit es = .ok (splice src 0 (es.mergeSort notAfter) src.byteLength) := by
  have hperm := List.mergeSort_perm es notAfter
  refine edit_eq_splice hapart hperm.symm (fits_ordered hapart hb hforward) fun e he => ?_
  exact hb e (hperm.mem_iff.1 he)

/-- Offsets between characters of the text do not lie beyond its end. -/
theorem edit_ne_beyondEnd (hb : OnBoundaries src es) : src.edit es ≠ .error .beyondEnd := by
  intro h
  by_cases hapart : es.Pairwise Apart
  · have hperm := List.mergeSort_perm es notAfter
    have hb' : OnBoundaries src (es.mergeSort notAfter) := fun e he => hb e (hperm.mem_iff.1 he)
    obtain ⟨rest, hrest⟩ := exists_applyAll (pairwise_ordered es)
      ((pairwise_apart_perm hperm).2 hapart) hb' src.isBoundary_zero fun e _ => Nat.zero_le e.start
    rw [edit_of_apart hapart, hrest] at h
    cases h
  · obtain ⟨offset, ho⟩ := edit_of_not_apart src hapart
    rw [h] at ho
    cases ho

end Text

end PlainComponents
