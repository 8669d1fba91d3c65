import Mathlib
import PlainComponents.Proofs.Text.Splice

/-!
# The outcome of a list of edits

Edits are given in any order and refer to the text as it is before any of them is carried out.  Three
things are said here about what comes of them.

* `Text.edit_clashes`: they are refused exactly if some two of them clash, wherever these stand in the
  list, and the offset that is reported is the least one at which an edit clashes with one before it.
  This holds for any offsets, ranges that run backwards included.  The check compares neighbours only;
  what makes that enough is that an edit that does not clash with its neighbour clashes with none after
  it (`not_clash_of_neighbour`).
* `Text.edit_eq_of_perm`: the order in which they are given has no part in the outcome, whatever that is.
  Sorting leaves edits with the same range as they come, but these clash, so it never gets to show.
* `Text.edit_spliced`: edits that do not clash, with ranges between characters of the text, are carried
  out, and the bytes of the result are those of the text with every range replaced (`Edit.spliceBytes`).
  Character positions, and the texts in between that the loop goes through, are no part of that
  description.
-/

namespace PlainComponents

namespace Edit

variable {a b x : Edit} {es : List Edit} {offset : Nat}

/-! ### Clashes anywhere in a list -/

/-- An edit that starts at `offset` clashes with one before it.  That `[a, b]` is part of the list up to
the order means that the two stand at different places of it. -/
def ClashAt (es : List Edit) (offset : Nat) : Prop :=
  ∃ a b, [a, b].Subperm es ∧ a.notAfter b = true ∧ Clash a b ∧ b.start = offset

/-- Two entries of a list are the first one and a later one, or they are both later ones. -/
theorem pair_subperm_cons (h : [a, b].Subperm (x :: es)) :
    (a = x ∧ b ∈ es) ∨ (b = x ∧ a ∈ es) ∨ [a, b].Subperm es := by
  obtain ⟨l, hperm, hsub⟩ := h
  rcases List.sublist_cons_iff.1 hsub with hsub | ⟨rest, rfl, hrest⟩
  · exact .inr (.inr ⟨l, hperm, hsub⟩)
  · -- the first entry is one of the two, and what is left of them comes later
    rcases List.perm_pair.1 hperm with heq | heq
    · obtain ⟨rfl, rfl⟩ := List.cons.inj heq
      exact .inl ⟨rfl, List.singleton_sublist.1 hrest⟩
    · obtain ⟨rfl, rfl⟩ := List.cons.inj heq
      exact .inr (.inl ⟨rfl, List.singleton_sublist.1 hrest⟩)

theorem apart_of_subperm (h : es.Pairwise Apart) (hab : [a, b].Subperm es) : Apart a b := by
  obtain ⟨l, hperm, hsub⟩ := hab
  have hl := h.sublist hsub
  rcases List.perm_pair.1 hperm with rfl | rfl
  · exact List.pairwise_pair.1 hl
  · exact (List.pairwise_pair.1 hl).symm

/-- Edits that are apart do not clash. -/
theorem not_clashAt_of_apart (h : es.Pairwise Apart) : ¬ ClashAt es offset := by
  rintro ⟨a, b, hab, hnot, hclash, -⟩
  exact (not_clash_iff_apart hnot).2 (apart_of_subperm h hab) hclash

theorem ClashAt.cons (h : ClashAt es offset) (x : Edit) : ClashAt (x :: es) offset := by
  obtain ⟨a, b, hab, hrest⟩ := h
  exact ⟨a, b, hab.cons_right x, hrest⟩

theorem ClashAt.subperm {fs : List Edit} (h : ClashAt fs offset) (hsub : fs.Subperm es) :
    ClashAt es offset := by
  obtain ⟨a, b, hab, hrest⟩ := h
  exact ⟨a, b, hab.trans hsub, hrest⟩

theorem clashAt_perm {fs : List Edit} (h : es.Perm fs) : ClashAt es offset ↔ ClashAt fs offset :=
  ⟨fun hes => hes.subperm h.subperm, fun hfs => hfs.subperm h.symm.subperm⟩

/-! ### Comparing neighbours -/

/-- In order, nothing starts before the first edit of a list. -/
theorem start_le_of_ordered (hs : (x :: es).Pairwise fun a b => a.notAfter b = true)
    (hb : b ∈ x :: es) : x.start ≤ b.start := by
  rcases List.mem_cons.1 hb with rfl | hb
  · exact Nat.le_refl _
  · have hxb := (List.pairwise_cons.1 hs).1 b hb
    rw [notAfter_iff] at hxb
    omega

/-- An edit that does not clash with its neighbour comes before everything from there on, and clashes
with nothing of it. -/
theorem not_clash_of_neighbour (hab : a.notAfter b = true)
    (hs : (b :: es).Pairwise fun a b => a.notAfter b = true) (h : ¬ Clash a b) (hx : x ∈ b :: es) :
    a.start < x.start ∧ ¬ Clash a x := by
  have hstart := start_le_of_ordered hs hx
  rw [notAfter_iff] at hab
  unfold Clash at h ⊢
  omega

/-- Of an ordered list, the first clash of neighbours is at the least offset of all clashes. -/
theorem isLeast_of_firstClash? (hs : es.Pairwise fun a b => a.notAfter b = true)
    (h : firstClash? es = some offset) : IsLeast {n | ClashAt es n} offset := by
  induction es with
  | nil => cases h
  | cons a es ih =>
    cases es with
    | nil => cases h
    | cons b es =>
      obtain ⟨ha, hrest⟩ := List.pairwise_cons.1 hs
      have hab := ha b List.mem_cons_self
      rw [firstClash?] at h
      split at h
      next hclash =>
        obtain rfl := Option.some.inj h
        have hpair : [a, b].Sublist (a :: b :: es) := by simp
        refine ⟨⟨a, b, hpair.subperm, hab, hclash, rfl⟩, ?_⟩
        -- whichever two clash, the later one is not before `b`
        rintro n ⟨c, d, hcd, hnot, -, rfl⟩
        rcases pair_subperm_cons hcd with ⟨-, hd⟩ | ⟨rfl, hc⟩ | hcd
        · exact start_le_of_ordered hrest hd
        · have hbc := start_le_of_ordered hrest hc
          rw [notAfter_iff] at hnot
          omega
        · exact start_le_of_ordered hrest (hcd.subset (by simp))
      next hclash =>
        obtain ⟨hmem, hleast⟩ := ih hrest h
        refine ⟨ClashAt.cons hmem a, ?_⟩
        -- `a` clashes with nothing, so the clashes are those of the rest
        rintro n ⟨c, d, hcd, hnot, hclash', rfl⟩
        rcases pair_subperm_cons hcd with ⟨rfl, hd⟩ | ⟨rfl, hc⟩ | hcd
        · exact absurd hclash' (not_clash_of_neighbour hab hrest hclash hd).2
        · have hlt := (not_clash_of_neighbour hab hrest hclash hc).1
          rw [notAfter_iff] at hnot
          omega
        · exact hleast ⟨c, d, hcd, hnot, hclash', rfl⟩

end Edit

namespace Text

open Edit

variable {src : Text} {es fs : List Edit} {offset : Nat}

theorem edit_eq_clash_iff :
    src.edit es = .error (.clash offset) ↔ firstClash? (es.mergeSort notAfter) = some offset := by
  unfold Text.edit
  dsimp only
  cases firstClash? (es.mergeSort notAfter) with
  | some n => simp
  | none => cases applyAll (es.mergeSort notAfter) src <;> simp

/-- The offset that is reported is the least one at which an edit clashes with one before it. -/
theorem isLeast_of_edit_eq_clash (h : src.edit es = .error (.clash offset)) :
    IsLeast {n | ClashAt es n} offset := by
  have hleast := isLeast_of_firstClash? (pairwise_ordered es) (edit_eq_clash_iff.1 h)
  have hperm : ∀ n, ClashAt (es.mergeSort notAfter) n ↔ ClashAt es n := fun n =>
    clashAt_perm (List.mergeSort_perm es notAfter)
  simpa only [hperm] using hleast

/-- Edits are refused for a clash exactly if two of them clash. -/
theorem exists_edit_eq_clash_iff :
    (∃ offset, src.edit es = .error (.clash offset)) ↔ ∃ offset, ClashAt es offset := by
  constructor
  · rintro ⟨offset, h⟩
    exact ⟨offset, (isLeast_of_edit_eq_clash h).1⟩
  · rintro ⟨offset, h⟩
    exact edit_of_not_apart src fun hapart => not_clashAt_of_apart hapart h

/-- Edits are refused exactly if two of them, at different places of the list, clash, the reported
offset is the least one at which an edit clashes with one before it, and what is left of edits that are
not refused is not refused either. -/
theorem edit_clashes (src : Text) (es : List Edit) :
    ((∃ offset, src.edit es = .error (.clash offset)) ↔
      ∃ a b, [a, b].Subperm es ∧ a.notAfter b = true ∧ (b.start < a.stop ∨ a.start = b.start)) ∧
    (∀ offset, src.edit es = .error (.clash offset) → IsLeast {n | ClashAt es n} offset) ∧
    ∀ fs : List Edit, fs.Sublist es → (¬ ∃ offset, src.edit es = .error (.clash offset)) →
      ¬ ∃ offset, src.edit fs = .error (.clash offset) := by
  refine ⟨?_, fun offset => isLeast_of_edit_eq_clash, fun fs hsub => ?_⟩
  · rw [exists_edit_eq_clash_iff]
    constructor
    · rintro ⟨offset, a, b, hab, hnot, hclash, -⟩
      exact ⟨a, b, hab, hnot, hclash⟩
    · rintro ⟨a, b, hab, hnot, hclash⟩
      exact ⟨b.start, a, b, hab, hnot, hclash, rfl⟩
  · rw [exists_edit_eq_clash_iff, exists_edit_eq_clash_iff]
    apply mt
    rintro ⟨offset, h⟩
    exact ⟨offset, h.subperm hsub.subperm⟩

/-- The widest of three edits reaches over both others, and the nearer one of these is reported,
wherever they stand in the list.  Without it the edits are not refused, although the last range runs
backwards, and neither is one of them alone. -/
theorem wide_edit_clashes :
    IsLeast {n | ClashAt [⟨7, 2, []⟩, ⟨1, 9, []⟩, ⟨5, 6, []⟩] n} 5 ∧
    (∃ a b : Edit, [a, b].Subperm [⟨7, 2, []⟩, ⟨1, 9, []⟩, ⟨5, 6, []⟩] ∧ a.notAfter b = true ∧
      (b.start < a.stop ∨ a.start = b.start)) ∧
    (¬ ∃ offset, edit "abcdefghi".toList [⟨7, 2, []⟩, ⟨5, 6, []⟩] = .error (.clash offset)) ∧
    ¬ ∃ offset, edit "abcdefghi".toList [⟨7, 2, []⟩] = .error (.clash offset) := by
  have hwide : edit "abcdefghi".toList [⟨7, 2, []⟩, ⟨1, 9, []⟩, ⟨5, 6, []⟩] = .error (.clash 5) := by cbv
  have hrest : edit "abcdefghi".toList [⟨7, 2, []⟩, ⟨5, 6, []⟩] = .ok "abcdeghi".toList := by cbv
  have haccepted : ¬ ∃ offset,
      edit "abcdefghi".toList [⟨7, 2, []⟩, ⟨5, 6, []⟩] = .error (.clash offset) := by
    rintro ⟨offset, h⟩
    cases hrest.symm.trans h
  obtain ⟨hiff, hleast, -⟩ := edit_clashes "abcdefghi".toList [⟨7, 2, []⟩, ⟨1, 9, []⟩, ⟨5, 6, []⟩]
  obtain ⟨-, -, hsub⟩ := edit_clashes "abcdefghi".toList [⟨7, 2, []⟩, ⟨5, 6, []⟩]
  exact ⟨hleast 5 hwide, hiff.1 ⟨5, hwide⟩, haccepted, hsub [⟨7, 2, []⟩] (by simp) haccepted⟩

/-! ### Edits in another order -/

/-- A clash is reported at the same offset in whatever order the edits are given. -/
theorem edit_eq_clash_of_perm (h : es.Perm fs) (hes : src.edit es = .error (.clash offset)) :
    src.edit fs = .error (.clash offset) := by
  have hleast := isLeast_of_edit_eq_clash hes
  obtain ⟨offset', hfs⟩ : ∃ offset', src.edit fs = .error (.clash offset') :=
    exists_edit_eq_clash_iff.2 ⟨offset, (clashAt_perm h).1 hleast.1⟩
  have hleast' := isLeast_of_edit_eq_clash hfs
  simp only [← clashAt_perm h] at hleast'
  rw [hfs, hleast'.unique hleast]

/-- Edits that are apart can be put in order in one way only. -/
theorem ordered_eq_of_perm (h : es.Perm fs) (hapart : es.Pairwise Apart) :
    es.mergeSort notAfter = fs.mergeSort notAfter := by
  have hes := List.mergeSort_perm es notAfter
  have hfs := List.mergeSort_perm fs notAfter
  apply eq_of_perm_of_apart (hes.trans (h.trans hfs.symm)) ((pairwise_apart_perm hes).2 hapart)
  · exact pairwise_ordered es
  · exact pairwise_ordered fs

/-- **The order in which edits are given does not matter.**  The outcome is the same text, a clash at the
same offset, or an offset beyond the end for both orders, also with ranges that run backwards or cut
through a character. -/
theorem edit_eq_of_perm (src : Text) (es fs : List Edit) (h : es.Perm fs) :
    src.edit es = src.edit fs := by
  by_cases hapart : es.Pairwise Apart
  · have hapart' := (pairwise_apart_perm h).1 hapart
    rw [edit_of_apart hapart, edit_of_apart hapart', ordered_eq_of_perm h hapart]
  · -- two edits with the same range are not apart, so ties end here
    obtain ⟨offset, hes⟩ := edit_of_not_apart src hapart
    rw [hes, edit_eq_clash_of_perm h hes]

/-- Edits that are carried out although one runs backwards from inside a character, edits that tie, and
edits of which one lies beyond the end, each list in both orders. -/
theorem swapped_edits_agree :
    (edit "é = ü".toList [⟨3, 4, ":".toList⟩, ⟨2, 1, "x".toList⟩] = .ok "éx : ü".toList ∧
      edit "é = ü".toList [⟨2, 1, "x".toList⟩, ⟨3, 4, ":".toList⟩] = .ok "éx : ü".toList) ∧
    (edit "é = ü".toList [⟨2, 2, "x".toList⟩, ⟨2, 2, "y".toList⟩] = .error (.clash 2) ∧
      edit "é = ü".toList [⟨2, 2, "y".toList⟩, ⟨2, 2, "x".toList⟩] = .error (.clash 2)) ∧
    (edit "é = ü".toList [⟨8, 3, []⟩, ⟨0, 1, []⟩] = .error .beyondEnd ∧
      edit "é = ü".toList [⟨0, 1, []⟩, ⟨8, 3, []⟩] = .error .beyondEnd) := by
  have hswap : ∀ a b : Edit, edit "é = ü".toList [a, b] = edit "é = ü".toList [b, a] := fun a b =>
    edit_eq_of_perm "é = ü".toList [a, b] [b, a] (.swap b a [])
  refine ⟨⟨?_, ?_⟩, ⟨?_, ?_⟩, ?_, ?_⟩
  · cbv
  · rw [hswap]
    cbv
  · cbv
  · rw [hswap]
    cbv
  · cbv
  · rw [hswap]
    cbv

end Text

/-! ### Bytes -/

namespace Text

@[simp] theorem encode_nil : encode [] = [] := rfl

/-- Between characters, cutting a text and cutting its bytes is the same. -/
theorem encode_slice {t : Text} {i j : Nat} (hi : isBoundary t i) (hj : isBoundary t j) (hij : i ≤ j) :
    encode (slice t i j) = ((encode t).drop i).take (j - i) := by
  obtain ⟨pre, mid, post, rfl, rfl, rfl⟩ := exists_split₃ hi hj hij
  rw [slice_append_append, List.append_assoc, encode_append, encode_append, ← length_encode pre,
    List.drop_left, length_encode, Nat.add_sub_cancel_left, ← length_encode mid, List.take_left]

end Text

namespace Edit

/-- The bytes from `pos` on, with the text of each edit in place of its range. -/
def spliceBytes (bytes : List UInt8) : Nat → List Edit → List UInt8
  | pos, [] => bytes.drop pos
  | pos, e :: es =>
    (bytes.drop pos).take (e.start - pos) ++ Text.encode e.text ++ spliceBytes bytes e.stop es

/-- The edits in the order of their starts. -/
def byStart (es : List Edit) : List Edit :=
  es.mergeSort fun a b => a.start ≤ b.start

/-- Edits that are apart start at different places, so where they stop has no part in their order. -/
theorem byStart_eq_ordered {es : List Edit} (h : es.Pairwise Apart) :
    byStart es = es.mergeSort notAfter := by
  have hperm : (byStart es).Perm es := List.mergeSort_perm es _
  have hapart : (byStart es).Pairwise Apart := (pairwise_apart_perm hperm).2 h
  have hstart : (byStart es).Pairwise fun a b => decide (a.start ≤ b.start) = true := by
    apply List.pairwise_mergeSort
    · intro a b c hab hbc
      simp only [decide_eq_true_eq] at hab hbc ⊢
      exact Nat.le_trans hab hbc
    · intro a b
      simpa using Nat.le_total a.start b.start
  apply eq_of_perm_of_apart (hperm.trans (List.mergeSort_perm es notAfter).symm) hapart
  · refine hstart.imp₂ (fun a b hab hne => ?_) hapart
    rw [notAfter_iff]
    have hle : a.start ≤ b.start := by simpa using hab
    exact .inl (Nat.lt_of_le_of_ne hle hne.1)
  · exact pairwise_ordered es

/-- The bytes of a splice are the splice of the bytes. -/
theorem encode_splice {src : Text} {pos : Nat} {es : List Edit} (h : Fits pos es src.byteLength)
    (hb : OnBoundaries src es) (hpos : src.isBoundary pos) :
    Text.encode (splice src pos es src.byteLength) = spliceBytes (Text.encode src) pos es := by
  induction es generalizing pos with
  | nil =>
    rw [splice, Text.encode_slice hpos src.isBoundary_byteLength h, ← Text.length_encode src, spliceBytes]
    exact List.take_of_length_le (by rw [List.length_drop])
  | cons e es ih =>
    obtain ⟨h₁, -, h₃⟩ := h
    obtain ⟨hstart, hstop⟩ := hb e List.mem_cons_self
    have hrest := ih h₃ (fun f hf => hb f (List.mem_cons_of_mem _ hf)) hstop
    rw [splice, Text.encode_append, Text.encode_append, Text.encode_slice hpos hstart h₁, hrest,
      spliceBytes]

end Edit

namespace Text

open Edit

/-- Edits that do not clash and whose ranges lie between characters of the text are carried out, and
what comes of them is read off the bytes: those between the ranges, and the texts of the edits, in the
order of the starts. -/
theorem edit_spliced (src : Text) (es : List Edit)
    (hrange : ∀ e ∈ es, e.start ≤ e.stop ∧ src.isBoundary e.start ∧ src.isBoundary e.stop)
    (hapart : es.Pairwise Apart) :
    ∃ out, src.edit es = .ok out ∧ encode out = spliceBytes (encode src) 0 (byStart es) := by
  have hb : OnBoundaries src es := fun e he => (hrange e he).2
  have hperm := List.mergeSort_perm es notAfter
  have hb' : OnBoundaries src (es.mergeSort notAfter) := fun e he => hb e (hperm.mem_iff.1 he)
  have hfits := fits_ordered hapart hb fun e he => (hrange e he).1
  refine ⟨splice src 0 (es.mergeSort notAfter) src.byteLength, ?_, ?_⟩
  · exact edit_eq_splice hapart hperm.symm hfits hb'
  · rw [byStart_eq_ordered hapart]
    exact encode_splice hfits hb' src.isBoundary_zero

/-- A replacement, a deletion that touches it and an insertion at the end, among characters of two bytes
and given out of order. -/
theorem multibyte_spliced :
    ∃ out, edit "é = (ü) => ü".toList [⟨15, 15, ";".toList⟩, ⟨8, 9, []⟩, ⟨6, 8, "vw".toList⟩] = .ok out ∧
      encode out = spliceBytes (encode "é = (ü) => ü".toList) 0
        (byStart [⟨15, 15, ";".toList⟩, ⟨8, 9, []⟩, ⟨6, 8, "vw".toList⟩]) ∧
      out = "é = (vw => ü;".toList := by
  obtain ⟨out, hedit, hbytes⟩ := edit_spliced "é = (ü) => ü".toList
    [⟨15, 15, ";".toList⟩, ⟨8, 9, []⟩, ⟨6, 8, "vw".toList⟩] (by decide) (by decide)
  have hout : edit "é = (ü) => ü".toList [⟨15, 15, ";".toList⟩, ⟨8, 9, []⟩, ⟨6, 8, "vw".toList⟩] =
      .ok "é = (vw => ü;".toList := by cbv
  exact ⟨out, hedit, hbytes, Except.ok.inj (hedit.symm.trans hout)⟩

end Text

end PlainComponents
