import PlainComponents.Text.Edit

/-!
# Offsets that fall between characters

A byte offset of a text is a *boundary* if no character straddles it.  At boundaries the byte view
and the character view of a text agree: a text that splits as `pre ++ mid ++ post` has the slice
`mid` between the byte lengths of `pre` and of `pre ++ mid` (`slice_append_append`), and conversely any
two boundaries split the text in this way (`exists_split₃`).  Everything about slices and single
edits below is read off such a split, so characters of several bytes need no case of their own.
-/

namespace PlainComponents

namespace Text

/-! ### Byte lengths -/

@[simp] theorem byteLength_nil : byteLength [] = 0 := rfl

@[simp] theorem byteLength_cons (c : Char) (t : Text) :
    byteLength (c :: t) = c.utf8Size + byteLength t := rfl

@[simp] theorem byteLength_append (s t : Text) :
    byteLength (s ++ t) = byteLength s + byteLength t := by
  induction s with
  | nil => simp
  | cons c s ih => simp [ih, Nat.add_assoc]

/-- The byte length of a nonempty text as a successor, the form in which offsets are consumed. -/
theorem byteLength_cons_eq_succ (c : Char) (t : Text) :
    byteLength (c :: t) = (c.utf8Size - 1 + byteLength t) + 1 := by
  have := c.utf8Size_pos
  rw [byteLength_cons]
  omega

/-- Consuming the first character of a text leaves the byte length of the others. -/
theorem succ_sub_utf8Size (c : Char) (t : Text) :
    (c.utf8Size - 1 + byteLength t) + 1 - c.utf8Size = byteLength t := by
  have := c.utf8Size_pos
  omega

/-! ### Cutting at the byte length of a part -/

theorem dropBytes_append (s t : Text) : dropBytes (s ++ t) (byteLength s) = t := by
  induction s with
  | nil => cases t <;> rfl
  | cons c s ih =>
    rw [byteLength_cons_eq_succ, List.cons_append, dropBytes, succ_sub_utf8Size, ih]

theorem takeBytes_append (s t : Text) : takeBytes (s ++ t) (byteLength s) = s := by
  induction s with
  | nil => cases t <;> rfl
  | cons c s ih =>
    rw [byteLength_cons_eq_succ, List.cons_append, takeBytes, succ_sub_utf8Size, ih]

/-- The slice of a text that spells its middle part is that part. -/
theorem slice_append_append (pre mid post : Text) :
    slice (pre ++ mid ++ post) (byteLength pre) (byteLength pre + byteLength mid) = mid := by
  rw [slice, List.append_assoc, dropBytes_append, Nat.add_sub_cancel_left, takeBytes_append]

/-- A slice that runs backwards is empty. -/
theorem slice_eq_nil {t : Text} {i j : Nat} (h : j ≤ i) : slice t i j = [] := by
  rw [slice, Nat.sub_eq_zero_of_le h]
  cases dropBytes t i <;> rfl

theorem charIndex?_append (s t : Text) : charIndex? (s ++ t) (byteLength s) = some s.length := by
  induction s with
  | nil => cases t <;> rfl
  | cons c s ih =>
    have hc := c.utf8Size_pos
    rw [byteLength_cons_eq_succ, List.cons_append, charIndex?, if_neg (by omega),
      succ_sub_utf8Size, ih]
    rfl

/-! ### Boundaries -/

/-- No character straddles the offset, and it does not lie beyond the end. -/
def isBoundary : Text → Nat → Bool
  | _, 0 => true
  | [], _ + 1 => false
  | c :: t, n + 1 => c.utf8Size ≤ n + 1 && isBoundary t (n + 1 - c.utf8Size)

/-- A boundary splits the text. -/
theorem exists_split {t : Text} {n : Nat} (h : isBoundary t n) :
    ∃ pre post, t = pre ++ post ∧ byteLength pre = n := by
  induction t generalizing n with
  | nil =>
    cases n with
    | zero => exact ⟨[], [], rfl, rfl⟩
    | succ n => simp [isBoundary] at h
  | cons c t ih =>
    cases n with
    | zero => exact ⟨[], c :: t, rfl, rfl⟩
    | succ n =>
      simp only [isBoundary, Bool.and_eq_true, decide_eq_true_eq] at h
      obtain ⟨hc, ht⟩ := h
      obtain ⟨pre, post, rfl, hpre⟩ := ih ht
      refine ⟨c :: pre, post, rfl, ?_⟩
      rw [byteLength_cons, hpre]
      omega

theorem isBoundary_append (s t : Text) : isBoundary (s ++ t) (byteLength s) := by
  induction s with
  | nil => cases t <;> rfl
  | cons c s ih =>
    have hc := c.utf8Size_pos
    rw [byteLength_cons_eq_succ, List.cons_append, isBoundary, succ_sub_utf8Size, ih]
    simp only [Bool.and_true, decide_eq_true_eq]
    omega

@[simp] theorem isBoundary_zero (t : Text) : isBoundary t 0 = true := by
  cases t <;> rfl

@[simp] theorem isBoundary_byteLength (t : Text) : isBoundary t (byteLength t) = true := by
  simpa using isBoundary_append t []

theorem le_byteLength_of_isBoundary {t : Text} {n : Nat} (h : isBoundary t n) :
    n ≤ byteLength t := by
  obtain ⟨pre, post, rfl, rfl⟩ := exists_split h
  simp

/-- Of two ways to split a text, the one that cuts off fewer bytes in front comes first. -/
theorem exists_middle {pre₁ post₁ pre₂ post₂ : Text} (h : pre₁ ++ post₁ = pre₂ ++ post₂)
    (hle : byteLength pre₁ ≤ byteLength pre₂) : ∃ mid, pre₂ = pre₁ ++ mid ∧ post₁ = mid ++ post₂ := by
  rcases List.append_eq_append_iff.1 h with ⟨mid, h₁, h₂⟩ | ⟨mid, h₁, h₂⟩
  · exact ⟨mid, h₁, h₂⟩
  · -- the other way round, `mid` has no bytes and so no characters
    cases mid with
    | nil => exact ⟨[], by simpa using h₁.symm, by simpa using h₂.symm⟩
    | cons c mid =>
      have hc := c.utf8Size_pos
      rw [h₁, byteLength_append, byteLength_cons] at hle
      omega

/-- Two boundaries split the text into three parts. -/
theorem exists_split₃ {t : Text} {i j : Nat} (hi : isBoundary t i) (hj : isBoundary t j)
    (hij : i ≤ j) :
    ∃ pre mid post, t = pre ++ mid ++ post ∧ byteLength pre = i ∧
      byteLength pre + byteLength mid = j := by
  obtain ⟨pre₁, post₁, h₁, rfl⟩ := exists_split hi
  obtain ⟨pre₂, post₂, h₂, rfl⟩ := exists_split hj
  obtain ⟨mid, rfl, rfl⟩ := exists_middle (h₁.symm.trans h₂) hij
  exact ⟨pre₁, mid, post₂, by rw [h₁, List.append_assoc], rfl, by simp⟩

/-! ### Slices between boundaries -/

/-- Neighbouring slices join to one. -/
theorem slice_append_slice {t : Text} {i j k : Nat} (hi : isBoundary t i) (hj : isBoundary t j)
    (hk : isBoundary t k) (hij : i ≤ j) (hjk : j ≤ k) :
    slice t i j ++ slice t j k = slice t i k := by
  obtain ⟨pre, mid, rest, rfl, rfl, rfl⟩ := exists_split₃ hi hj hij
  obtain ⟨pre', mid', post, h, hpre, rfl⟩ := exists_split₃ hj hk hjk
  obtain ⟨u, rfl, rfl⟩ := exists_middle
    (by simpa using h : (pre ++ mid) ++ rest = pre' ++ (mid' ++ post)) (by simp [hpre])
  have hu : u = [] := by
    cases u with
    | nil => rfl
    | cons c u =>
      have := c.utf8Size_pos
      simp only [byteLength_append, byteLength_cons] at hpre
      omega
  subst hu
  have e₁ := slice_append_append pre mid (mid' ++ post)
  have e₂ := slice_append_append (pre ++ mid) mid' post
  have e₃ := slice_append_append pre (mid ++ mid') post
  simp only [List.append_nil, List.nil_append, List.append_assoc, byteLength_append,
    Nat.add_assoc] at e₁ e₂ e₃ ⊢
  rw [e₁, e₂, e₃]

theorem byteLength_slice {t : Text} {i j : Nat} (hi : isBoundary t i) (hj : isBoundary t j)
    (hij : i ≤ j) : byteLength (slice t i j) = j - i := by
  obtain ⟨pre, mid, post, rfl, rfl, rfl⟩ := exists_split₃ hi hj hij
  rw [slice_append_append, Nat.add_sub_cancel_left]

@[simp] theorem slice_self (t : Text) (i : Nat) : slice t i i = [] :=
  slice_eq_nil (Nat.le_refl i)

theorem slice_zero_byteLength (t : Text) : slice t 0 (byteLength t) = t := by
  simpa using slice_append_append [] t []

/-! ### Blanks -/

/-- The characters that are blank. -/
def blanks : List Char :=
  [' ', '\t', '\n', '\x0c', '\r']

@[simp] theorem encode_append (s t : Text) : encode (s ++ t) = encode s ++ encode t :=
  List.flatMap_append

/-- What follows a part of a text starts with a blank, or does not, by itself. -/
theorem isBlankAt_append (s t : Text) : isBlankAt (s ++ t) (byteLength s) = isBlankAt t 0 := by
  unfold isBlankAt
  rw [encode_append, List.getElem?_append_right (Nat.le_of_eq (length_encode s)), length_encode,
    Nat.sub_self]

/-- The first byte of a character is the character, unless it is beyond the bytes that are. -/
theorem exists_utf8EncodeChar (c : Char) : ∃ b bs, String.utf8EncodeChar c = b :: bs ∧
    (b.toNat = c.toNat ∨ 128 ≤ b.toNat) := by
  have hval : c.val.toNat = c.toNat := rfl
  unfold String.utf8EncodeChar
  rw [hval]
  dsimp only
  -- one case for each number of bytes
  split
  · exact ⟨_, _, rfl, .inl (by rw [UInt8.toNat_ofNat']; omega)⟩
  · split
    · exact ⟨_, _, rfl, .inr (by rw [UInt8.toNat_ofNat']; omega)⟩
    · split
      · exact ⟨_, _, rfl, .inr (by rw [UInt8.toNat_ofNat']; omega)⟩
      · exact ⟨_, _, rfl, .inr (by rw [UInt8.toNat_ofNat']; omega)⟩

theorem isBlankAt_cons {c : Char} (hc : c ∉ blanks) (t : Text) : isBlankAt (c :: t) 0 = false := by
  obtain ⟨b, bs, henc, hb⟩ := exists_utf8EncodeChar c
  have hfirst : isBlankAt (c :: t) 0 = isBlankByte b := by
    simp [isBlankAt, encode, henc]
  have hne : ∀ d ∈ blanks, c.toNat ≠ d.toNat := by
    intro d hd heq
    apply hc
    rw [Char.ext (UInt32.toNat_inj.1 heq)]
    exact hd
  rw [hfirst]
  simp only [isBlankByte, Bool.or_eq_false_iff, decide_eq_false_iff_not, ← UInt8.toNat_inj]
  simp [blanks] at hne ⊢
  omega

end Text

/-! ### One edit at boundaries -/

/-- An edit whose range spells the middle part of a text replaces that part. -/
theorem Edit.applyTo_append {e : Edit} {pre mid post : Text} (hstart : Text.byteLength pre = e.start)
    (hstop : Text.byteLength pre + Text.byteLength mid = e.stop) :
    e.applyTo (pre ++ mid ++ post) = some (pre ++ e.text ++ post) := by
  have hi : Text.charIndex? (pre ++ mid ++ post) e.start = some pre.length := by
    rw [← hstart, List.append_assoc]
    exact Text.charIndex?_append pre (mid ++ post)
  have hj : Text.charIndex? (pre ++ mid ++ post) e.stop = some (pre ++ mid).length := by
    rw [← hstop, ← Text.byteLength_append]
    exact Text.charIndex?_append (pre ++ mid) post
  have hmax : max pre.length (pre ++ mid).length = (pre ++ mid).length := by
    rw [List.length_append]
    omega
  simp only [applyTo, hi, hj, Option.bind_eq_bind, Option.bind_some, hmax]
  rw [List.drop_left, List.append_assoc pre mid post, List.take_left]
  rfl

/-- An edit whose range runs backwards over the middle part only inserts, after that part. -/
theorem Edit.applyTo_backward {e : Edit} {pre mid post : Text}
    (hstop : Text.byteLength pre = e.stop)
    (hstart : Text.byteLength pre + Text.byteLength mid = e.start) :
    e.applyTo (pre ++ mid ++ post) = some (pre ++ mid ++ e.text ++ post) := by
  have hi : Text.charIndex? (pre ++ mid ++ post) e.start = some (pre ++ mid).length := by
    rw [← hstart, ← Text.byteLength_append]
    exact Text.charIndex?_append (pre ++ mid) post
  have hj : Text.charIndex? (pre ++ mid ++ post) e.stop = some pre.length := by
    rw [← hstop, List.append_assoc]
    exact Text.charIndex?_append pre (mid ++ post)
  have hmax : max (pre ++ mid).length pre.length = (pre ++ mid).length := by
    rw [List.length_append]
    omega
  simp only [applyTo, hi, hj, Option.bind_eq_bind, Option.bind_some, hmax]
  rw [List.drop_left, List.take_left]
  rfl

end PlainComponents
