import Mathlib.Data.List.Forall2

/-!
# Traversals that can fail

Props types are lowered member by member, files are found root by root and reports are printed one after
the other. Each of these ends with the first failure, if there is one: `exists_of_mapM_eq_error`.
Otherwise there is one result for each entry: `forall₂_of_mapM_eq_ok`.

Looking for an entry can fail too. In lists that are related entry by entry it fails in both or finds
related entries: `rel_find?_of_forall₂`.
-/

namespace PlainComponents

section Traversals

variable {α β γ ε : Type} {f : α → Except ε β} {xs : List α} {ys : List β} {e : ε}

theorem map_eq_ok_iff {x : Except ε α} {g : α → β} {y : β} :
    g <$> x = .ok y ↔ ∃ a, x = .ok a ∧ g a = y := by
  cases x with
  | error e => simp [Functor.map, Except.map]
  | ok a => simp [Functor.map, Except.map]

/-- The results of a list are related to its entries one by one. -/
theorem forall₂_of_mapM_eq_ok (h : xs.mapM f = .ok ys) :
    List.Forall₂ (fun x y => f x = .ok y) xs ys := by
  induction xs generalizing ys with
  | nil =>
    cases h
    exact .nil
  | cons x xs ih =>
    rw [List.mapM_cons] at h
    cases hx : f x with
    | error e => rw [hx] at h; cases h
    | ok y =>
      cases hxs : xs.mapM f with
      | error e => rw [hx, hxs] at h; cases h
      | ok zs =>
        rw [hx, hxs] at h
        cases h
        exact .cons hx (ih hxs)

/-- If each entry has its result, the list has the list of results. -/
theorem mapM_eq_ok_of_forall₂ (h : List.Forall₂ (fun x y => f x = .ok y) xs ys) :
    xs.mapM f = .ok ys := by
  induction h with
  | nil => rfl
  | cons hx _ ih =>
    rw [List.mapM_cons, hx, ih]
    rfl

/-- What holds of each result holds of the list of results. -/
theorem map_eq_of_mapM_eq_ok {g : α → γ} {k : β → γ} (hf : ∀ x ∈ xs, ∀ y, f x = .ok y → k y = g x)
    (h : xs.mapM f = .ok ys) : ys.map k = xs.map g := by
  have hall := forall₂_of_mapM_eq_ok h
  clear h
  induction hall with
  | nil => rfl
  | @cons x y xs ys hx hrest ih =>
    rw [List.forall_mem_cons] at hf
    rw [List.map_cons, List.map_cons, hf.1 y hx, ih hf.2]

/-- A traversal fails as its first failing entry does. -/
theorem exists_of_mapM_eq_error (h : xs.mapM f = .error e) :
    ∃ before x after, xs = before ++ x :: after ∧ (∀ y ∈ before, ∃ z, f y = .ok z) ∧
      f x = .error e := by
  induction xs with
  | nil => cases h
  | cons x xs ih =>
    rw [List.mapM_cons] at h
    cases hx : f x with
    | error e' =>
      rw [hx] at h
      cases h
      exact ⟨[], x, xs, rfl, by simp, hx⟩
    | ok y =>
      rw [hx] at h
      have hrest : xs.mapM f = .error e := by
        cases hxs : xs.mapM f with
        | error e' => rw [hxs] at h; exact h
        | ok zs => rw [hxs] at h; cases h
      obtain ⟨before, x', after, rfl, hbefore, hx'⟩ := ih hrest
      exact ⟨x :: before, x', after, rfl, List.forall_mem_cons.2 ⟨⟨y, hx⟩, hbefore⟩, hx'⟩

/-- The first entry that fails is the one that a traversal fails as. -/
theorem mapM_eq_error_of_first {before after : List α} {x : α} (hbefore : ∀ y ∈ before, ∃ z, f y = .ok z)
    (hx : f x = .error e) : (before ++ x :: after).mapM f = .error e := by
  induction before with
  | nil =>
    rw [List.nil_append, List.mapM_cons, hx]
    rfl
  | cons y before ih =>
    rw [List.forall_mem_cons] at hbefore
    obtain ⟨⟨z, hz⟩, hrest⟩ := hbefore
    rw [List.cons_append, List.mapM_cons, hz, ih hrest]
    rfl

theorem toOption_map (g : α → β) (x : Except ε α) : (g <$> x).toOption = x.toOption.map g := by
  cases x with
  | error e => rfl
  | ok a => rfl

/-- Two traversals whose entries give the same results or fail together do so as a whole. -/
theorem toOption_mapM_eq {δ ε' : Type} {g : δ → Except ε' β} {zs : List δ}
    (h : List.Forall₂ (fun x z => (f x).toOption = (g z).toOption) xs zs) :
    (xs.mapM f).toOption = (zs.mapM g).toOption := by
  induction h with
  | nil => rfl
  | @cons x z xs zs hxz _ ih =>
    rw [List.mapM_cons, List.mapM_cons]
    cases hx : f x with
    | error e =>
      cases hz : g z with
      | error e' => rfl
      | ok b => rw [hx, hz] at hxz; cases hxz
    | ok a =>
      cases hz : g z with
      | error e' => rw [hx, hz] at hxz; cases hxz
      | ok b =>
        rw [hx, hz] at hxz
        obtain rfl : a = b := Option.some.inj hxz
        show ((a :: ·) <$> xs.mapM f).toOption = ((a :: ·) <$> zs.mapM g).toOption
        rw [toOption_map, toOption_map, ih]

/-- A traversal fails exactly if one of the entries fails. -/
theorem exists_mapM_eq_error_iff :
    (∃ e, xs.mapM f = .error e) ↔ ∃ x ∈ xs, ∃ e, f x = .error e := by
  constructor
  · rintro ⟨e, h⟩
    obtain ⟨before, x, after, rfl, -, hx⟩ := exists_of_mapM_eq_error h
    exact ⟨x, by simp, e, hx⟩
  · rintro ⟨x, hmem, e, hx⟩
    cases h : xs.mapM f with
    | error e' => exact ⟨e', rfl⟩
    | ok ys =>
      obtain ⟨i, hi, rfl⟩ := List.getElem_of_mem hmem
      have hall := forall₂_of_mapM_eq_ok h
      have hok := (List.forall₂_iff_get.1 hall).2 i hi (hall.length_eq ▸ hi)
      cases hx.symm.trans hok

end Traversals

section Related

variable {α β γ δ : Type} {R : α → β → Prop}

/-- Entries that are found by tests that agree are related. -/
theorem rel_find?_of_forall₂ {p : α → Bool} {q : β → Bool} {xs : List α} {ys : List β}
    (hpq : ∀ x y, R x y → q y = p x) (h : List.Forall₂ R xs ys) :
    Option.Rel R (xs.find? p) (ys.find? q) := by
  induction h with
  | nil => exact .none
  | @cons x y xs ys hxy _ ih =>
    rw [List.find?_cons, List.find?_cons, hpq x y hxy]
    cases p x with
    | true => exact .some hxy
    | false => exact ih

/-- What is computed from related entries in the same way is related. -/
theorem rel_bind {S : γ → δ → Prop} {x : Option α} {y : Option β} {f : α → Option γ}
    {g : β → Option δ} (h : Option.Rel R x y) (hfg : ∀ a b, R a b → Option.Rel S (f a) (g b)) :
    Option.Rel S (x.bind f) (y.bind g) := by
  cases h with
  | none => exact .none
  | some hab => exact hfg _ _ hab

theorem rel_self {R : α → α → Prop} (hR : ∀ a, R a a) (x : Option α) : Option.Rel R x x := by
  cases x with
  | none => exact .none
  | some a => exact .some (hR a)

theorem rel_map_iff {f : α → β} {x : Option α} {y : Option β} :
    Option.Rel (fun a b => b = f a) x y ↔ y = x.map f := by
  constructor
  · intro h
    cases h with
    | none => rfl
    | some hab => rw [hab, Option.map_some]
  · rintro rfl
    cases x with
    | none => exact .none
    | some a => exact .some rfl

end Related

end PlainComponents
