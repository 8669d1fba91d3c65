import Mathlib.Logic.Relation
import PlainComponents.Proofs.Component.Declared
import PlainComponents.Proofs.Tree.Concrete

/-!
# The function inside its wrappers

A value is unwrapped along parentheses and first arguments until a function is met.  This module says
what is found without the search.

* `FunctionNode.Opens` is one step from a wrapper to what it wraps, and `FunctionNode.Wraps` a chain of
  such steps that counts the calls.
* The search finds a function exactly if a chain leads to it (`find?_eq_some_iff_wraps`).  A step never
  leaves the node that it starts from (`Opens.exists_child`), which bounds every chain and keeps the
  function inside the value.
* `FunctionNode.Reworded` changes a callee or an argument behind the first one, at any depth.  The search
  does not notice (`find?_of_reworded`).
-/

namespace PlainComponents

/-- The kinds of node that are functions, and what they count as. -/
inductive FunctionKind.Of : FunctionKind → Kind → Prop
  | arrow : Of .arrow .arrowFunction
  | expression : Of .function .functionExpression
  | function : Of .function .function

namespace FunctionNode

open PlainComponents.Tree

variable {t t' a a' c c' v v' : Tree} {k : FunctionKind} {f g : FunctionNode} {n w : Nat}

/-! ### One step -/

/-- The node `c` is what the wrapper `t` holds, behind `n` calls. -/
inductive Opens (t c : Tree) : Nat → Prop
  | parenthesis (hk : t.kind = .parenthesizedExpression) (hc : t.IsFirst Counts c) : Opens t c 0
  | call {a : Tree} (hk : t.kind = .callExpression) (ha : t.IsFirst (Playing .arguments) a)
      (hak : a.kind = .arguments) (hc : a.IsFirst Counts c) : Opens t c 1

/-- A step goes down into one of the children. -/
theorem Opens.exists_child (h : Opens t c n) : ∃ b ∈ t.children, c ∈ b.preorder := by
  cases h with
  | parenthesis _ hc =>
    exact ⟨c, mem_of_firstProper? (firstProper?_eq_some_iff.2 hc), c.mem_preorder_self⟩
  | call _ ha _ hc =>
    refine ⟨_, mem_of_field? (field?_eq_some_iff.2 ha), ?_⟩
    exact child_mem_preorder (mem_of_firstProper? (firstProper?_eq_some_iff.2 hc))

theorem find?_of_function (h : k.Of t.kind) : find? t = some ⟨k, 0, t⟩ := by
  obtain ⟨l, cs⟩ := t
  rw [kind_node] at h
  rw [find?]
  generalize hl : l.kind = kind at h
  cases h <;> rfl

theorem find?_of_parenthesis (hk : t.kind = .parenthesizedExpression) :
    find? t = t.firstProper?.bind find? := by
  obtain ⟨l, cs⟩ := t
  rw [kind_node] at hk
  rw [find?, hk]
  exact findFirst?_eq cs

theorem find?_of_call (hk : t.kind = .callExpression) :
    find? t = ((t.field? .arguments).bind fun a =>
      if a.kind = .arguments then a.firstProper?.bind find? else none).map wrapped := by
  obtain ⟨l, cs⟩ := t
  rw [kind_node] at hk
  rw [find?, hk]
  exact congrArg (Option.map wrapped) (findArgument?_eq cs)

/-- No other kind of node is looked into. -/
theorem find?_of_other (hfunction : ¬ ∃ k : FunctionKind, k.Of t.kind)
    (hparenthesis : t.kind ≠ .parenthesizedExpression) (hcall : t.kind ≠ .callExpression) :
    find? t = none := by
  obtain ⟨l, cs⟩ := t
  rw [kind_node] at hfunction hparenthesis hcall
  rw [find?]
  split
  next hl => exact absurd ⟨.arrow, hl ▸ .arrow⟩ hfunction
  next hl => exact absurd ⟨.function, hl ▸ .expression⟩ hfunction
  next hl => exact absurd ⟨.function, hl ▸ .function⟩ hfunction
  next hl => exact absurd hl hparenthesis
  next hl => exact absurd hl hcall
  next => rfl

/-- A wrapper holds the function that its contents hold. -/
theorem find?_of_opens (h : Opens t c n) :
    find? t = (find? c).map fun g => { g with wrappers := g.wrappers + n } := by
  cases h with
  | parenthesis hk hc =>
    rw [find?_of_parenthesis hk, firstProper?_eq_some_iff.2 hc, Option.bind_some]
    exact Option.map_id_apply.symm
  | call hk ha hak hc =>
    rw [find?_of_call hk, field?_eq_some_iff.2 ha, Option.bind_some, if_pos hak,
      firstProper?_eq_some_iff.2 hc, Option.bind_some]
    rfl

/-- What is found is the node itself or lies one step deeper. -/
theorem find?_eq_some_cases (h : find? t = some f) :
    (∃ k : FunctionKind, k.Of t.kind ∧ f = ⟨k, 0, t⟩) ∨
    ∃ c n g, Opens t c n ∧ find? c = some g ∧ f = { g with wrappers := g.wrappers + n } := by
  by_cases hfunction : ∃ k : FunctionKind, k.Of t.kind
  · obtain ⟨k, hk⟩ := hfunction
    rw [find?_of_function hk] at h
    exact .inl ⟨k, hk, (Option.some.inj h).symm⟩
  · right
    by_cases hp : t.kind = .parenthesizedExpression
    · rw [find?_of_parenthesis hp] at h
      obtain ⟨c, hc, hf⟩ := Option.bind_eq_some_iff.1 h
      exact ⟨c, 0, f, .parenthesis hp (firstProper?_eq_some_iff.1 hc), hf, rfl⟩
    · by_cases hcall : t.kind = .callExpression
      · rw [find?_of_call hcall] at h
        obtain ⟨g, hg, rfl⟩ := Option.map_eq_some_iff.1 h
        obtain ⟨a, ha, hg⟩ := Option.bind_eq_some_iff.1 hg
        split at hg
        next hak =>
          obtain ⟨c, hc, hg⟩ := Option.bind_eq_some_iff.1 hg
          exact ⟨c, 1, g, .call hcall (field?_eq_some_iff.1 ha) hak
            (firstProper?_eq_some_iff.1 hc), hg, rfl⟩
        next => cases hg
      · rw [find?_of_other hfunction hp hcall] at h
        cases h

/-- Nothing is found in a node that is neither a function nor a wrapper. -/
theorem find?_eq_none_of_not_opens (hfunction : ¬ ∃ k : FunctionKind, k.Of t.kind)
    (hopens : ∀ c n, ¬ Opens t c n) : find? t = none := by
  rw [Option.eq_none_iff_forall_ne_some]
  intro f hf
  rcases find?_eq_some_cases hf with ⟨k, hk, -⟩ | ⟨c, n, -, hc, -, -⟩
  · exact hfunction ⟨k, hk⟩
  · exact hopens c n hc

/-! ### Chains of steps -/

/-- A chain of steps leads from the first node to the second, through `w` calls. -/
inductive Wraps : Tree → Nat → Tree → Prop
  | refl (t : Tree) : Wraps t 0 t
  | step {t c m : Tree} {n w : Nat} (h : Opens t c n) (hrest : Wraps c w m) : Wraps t (w + n) m

theorem Wraps.mem_preorder {m : Tree} (h : Wraps t w m) : m ∈ t.preorder := by
  induction h with
  | refl t => exact t.mem_preorder_self
  | step h _ ih =>
    obtain ⟨b, hb, hc⟩ := h.exists_child
    exact mem_preorder_of_mem_children hb (mem_preorder_trans ih hc)

/-- Every function that is found stands at the end of a chain. -/
theorem wraps_of_find? (h : find? v = some f) : f.kind.Of f.node.kind ∧ Wraps v f.wrappers f.node := by
  induction v using Tree.strongInductionOn generalizing f with
  | node l cs ih =>
    rcases find?_eq_some_cases h with ⟨k, hk, rfl⟩ | ⟨c, n, g, hopens, hg, rfl⟩
    · exact ⟨hk, .refl _⟩
    · obtain ⟨b, hb, hc⟩ := hopens.exists_child
      obtain ⟨hk, hwraps⟩ := ih b hb c hc hg
      exact ⟨hk, .step hopens hwraps⟩

/-- Every function at the end of a chain is found. -/
theorem find?_of_wraps {m : Tree} (hk : k.Of m.kind) (h : Wraps v w m) : find? v = some ⟨k, w, m⟩ := by
  induction h with
  | refl t => exact find?_of_function hk
  | step hopens _ ih => rw [find?_of_opens hopens, ih hk, Option.map_some]

theorem find?_eq_some_iff_wraps :
    find? v = some f ↔ f.kind.Of f.node.kind ∧ Wraps v f.wrappers f.node := by
  constructor
  · exact wraps_of_find?
  · rintro ⟨hk, h⟩
    exact find?_of_wraps hk h

theorem find?_eq_none_iff_wraps :
    find? v = none ↔ ∀ (k : FunctionKind) (w : Nat) (m : Tree), Wraps v w m → ¬ k.Of m.kind := by
  rw [Option.eq_none_iff_forall_ne_some]
  constructor
  · intro h k w m hwraps hk
    exact h _ (find?_of_wraps hk hwraps)
  · intro h f hf
    obtain ⟨hk, hwraps⟩ := wraps_of_find? hf
    exact h _ _ _ hwraps hk

/-- Unwrapping comes to an end: a sequence of nodes makes a step only so many times. -/
theorem exists_not_opens (chain : Nat → Tree) (h : chain 0 = v) :
    ∃ i, ∀ n, ¬ Opens (chain i) (chain (i + 1)) n := by
  induction v using Tree.strongInductionOn generalizing chain with
  | node l cs ih =>
    by_cases hstep : ∃ n, Opens (chain 0) (chain 1) n
    · obtain ⟨n, hopens⟩ := hstep
      rw [h] at hopens
      obtain ⟨b, hb, hc⟩ := hopens.exists_child
      obtain ⟨i, hi⟩ := ih b hb (chain 1) hc (fun i => chain (i + 1)) rfl
      exact ⟨i + 1, hi⟩
    · exact ⟨0, fun n hn => hstep ⟨n, hn⟩⟩

/-! ### What makes no difference -/

/-- The second value differs from the first in one call on the way to the function: in all that stands
beside the arguments, the callee among it, or in the arguments behind the first one. -/
inductive Reworded : Tree → Tree → Prop
  | callee {t t' : Tree} (hk : t.kind = .callExpression) (hk' : t'.kind = .callExpression)
      (h : ∀ a, t.IsFirst (Playing .arguments) a ↔ t'.IsFirst (Playing .arguments) a) : Reworded t t'
  | arguments {t t' a a' : Tree} (hk : t.kind = .callExpression) (hk' : t'.kind = .callExpression)
      (ha : t.IsFirst (Playing .arguments) a) (ha' : t'.IsFirst (Playing .arguments) a')
      (hak : a.kind = a'.kind) (h : ∀ c, a.IsFirst Counts c ↔ a'.IsFirst Counts c) : Reworded t t'
  | deeper {t t' c c' : Tree} {n : Nat} (hc : Opens t c n) (hc' : Opens t' c' n)
      (h : Reworded c c') : Reworded t t'

theorem find?_of_reworded (h : Reworded v v') : find? v = find? v' := by
  induction h with
  | @callee t t' hk hk' h =>
    have hsame : t.field? .arguments = t'.field? .arguments := by
      apply Option.ext
      intro a
      rw [field?_eq_some_iff, field?_eq_some_iff]
      exact h a
    rw [find?_of_call hk, find?_of_call hk', hsame]
  | @arguments t t' a a' hk hk' ha ha' hak h =>
    have hsame : a.firstProper? = a'.firstProper? := by
      apply Option.ext
      intro c
      rw [firstProper?_eq_some_iff, firstProper?_eq_some_iff]
      exact h c
    rw [find?_of_call hk, find?_of_call hk', field?_eq_some_iff.2 ha, field?_eq_some_iff.2 ha',
      Option.bind_some, Option.bind_some, hak, hsame]
  | deeper hc hc' _ ih => rw [find?_of_opens hc, find?_of_opens hc', ih]

/-- The same after any number of such changes. -/
theorem find?_of_reworded_many (h : Relation.ReflTransGen Reworded v v') : find? v = find? v' := by
  induction h with
  | refl => rfl
  | tail _ hstep ih => exact ih.trans (find?_of_reworded hstep)

/-- **Unwrapping finds exactly the innermost function along first arguments.**  It comes to an end.  It
finds a function, its kind and the number of calls around it if and only if the node is a function and a
chain of parentheses and first arguments with so many calls leads to it, and nothing if there is no such
chain.  Callees and further arguments make no difference, and the function lies inside the value if
children lie inside their parents. -/
theorem find?_innermost (v : Tree) :
    (∀ chain : Nat → Tree, chain 0 = v → ∃ i, ∀ n, ¬ Opens (chain i) (chain (i + 1)) n) ∧
    (∀ f, find? v = some f ↔ f.kind.Of f.node.kind ∧ Wraps v f.wrappers f.node) ∧
    (find? v = none ↔ ∀ (k : FunctionKind) (w : Nat) (m : Tree), Wraps v w m → ¬ k.Of m.kind) ∧
    (∀ v', Relation.ReflTransGen Reworded v v' → find? v = find? v') ∧
    (v.Nested → ∀ f, find? v = some f → v.start ≤ f.node.start ∧ f.node.stop ≤ v.stop) := by
  refine ⟨exists_not_opens, fun f => find?_eq_some_iff_wraps, find?_eq_none_iff_wraps, ?_, ?_⟩
  · intro v' h
    exact find?_of_reworded_many h
  · intro hnested f hf
    exact hnested.bounds (wraps_of_find? hf).2.mem_preorder

open Concrete in
/-- The value `memo(/*c*/(p=>p),q)`, for any callee and any second argument of one letter. -/
def memoized (callee second : String) : Concrete :=
  branch .callExpression none [leaf .identifier (some (.other "function")) callee,
    branch .arguments (some .arguments) [token "(", leaf .comment none "/*c*/",
      branch .parenthesizedExpression none [token "(", arrow none "p" (leaf .identifier none "p"),
        token ")"],
      token ",", leaf .identifier none second, token ")"]]

/-- The function of `memo(/*c*/(p=>p),q)` stands behind one call.  It is the same one for another callee
and another second argument, and it lies inside the value. -/
theorem memoized_innermost :
    (memoized "memo" "q").tree.Nested ∧
    Relation.ReflTransGen Reworded (memoized "memo" "q").tree (memoized "lazy" "r").tree ∧
    ∃ f, find? (memoized "memo" "q").tree = some f ∧ f.kind = .arrow ∧
      Wraps (memoized "memo" "q").tree 1 f.node ∧
      find? (memoized "lazy" "r").tree = some f ∧
      (memoized "memo" "q").tree.start ≤ f.node.start ∧
      f.node.stop ≤ (memoized "memo" "q").tree.stop := by
  obtain ⟨-, hiff, -, hsame, hbounds⟩ := find?_innermost (memoized "memo" "q").tree
  obtain ⟨f, hf, hkind, hwrappers⟩ : ∃ f, find? (memoized "memo" "q").tree = some f ∧
      f.kind = .arrow ∧ f.wrappers = 1 := ⟨_, rfl, rfl, rfl⟩
  have hreworded : Relation.ReflTransGen Reworded (memoized "memo" "q").tree
      (memoized "lazy" "r").tree := by
    refine .tail (.single (b := (memoized "lazy" "q").tree) ?_) ?_
    · obtain ⟨a, ha, ha'⟩ : ∃ a, (memoized "memo" "q").tree.field? .arguments = some a ∧
          (memoized "lazy" "q").tree.field? .arguments = some a := ⟨_, rfl, rfl⟩
      apply Reworded.callee rfl rfl
      intro b
      rw [← field?_eq_some_iff, ← field?_eq_some_iff, ha, ha']
    · obtain ⟨a, a', c, ha, ha', hkind, hc, hc'⟩ :
          ∃ a a' c, (memoized "lazy" "q").tree.field? .arguments = some a ∧
            (memoized "lazy" "r").tree.field? .arguments = some a' ∧ a.kind = a'.kind ∧
            a.firstProper? = some c ∧ a'.firstProper? = some c :=
        ⟨_, _, _, rfl, rfl, rfl, rfl, rfl⟩
      apply Reworded.arguments rfl rfl (field?_eq_some_iff.1 ha) (field?_eq_some_iff.1 ha') hkind
      intro b
      rw [← firstProper?_eq_some_iff, ← firstProper?_eq_some_iff, hc, hc']
  have hnested : (memoized "memo" "q").tree.Nested := by decide
  have hwraps := ((hiff f).1 hf).2
  rw [hwrappers] at hwraps
  exact ⟨hnested, hreworded, f, hf, hkind, hwraps, (hsame _ hreworded).symm.trans hf,
    hbounds hnested f hf⟩

end FunctionNode

end PlainComponents
