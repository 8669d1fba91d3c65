import Mathlib
import PlainComponents.Proofs.Component.AllOrNothing
import PlainComponents.Proofs.Component.Lowered

/-!
# Which components can be converted

A component can be converted if its parts have the right shapes: the value wraps a function, the props
are a type that can be written again, and the first parameter of the function can take them.  This module
says so without the conversion (`Tree.PropsShape`, `Tree.ParameterShape`), and shows that the conversion
accepts exactly these components.  Every other one is refused, and the failure names the first node that
is in the way, in the order value, props, parameter (`Declaration.Offends`).

Each step of the conversion is treated alike: `Verdict` states what it accepts and which node it refuses,
and verdicts follow the conversion, through `bind` from one part to the next and through `mapM` along the
children of a node.
-/

namespace PlainComponents

/-! ### Verdicts -/

/-- A step of the conversion succeeds exactly if `accepts` holds.  Otherwise it fails and names, with its
kind and its start, a node that `offends` in some role. -/
structure Verdict {α : Type} (x : Except Failure α) (accepts : Prop) (offends : Role → Tree → Prop) :
    Prop where
  ok : (∃ a, x = .ok a) ↔ accepts
  error : ∀ failure, x = .error failure ↔
    ∃ role n, offends role n ∧ failure = .unsupported role n.kind n.start

namespace Verdict

variable {α β : Type} {x : Except Failure α} {g : α → Except Failure β} {f : Tree → Except Failure β}
  {P Q : Prop} {O R : Role → Tree → Prop}

theorem accept (a : α) : Verdict (.ok a) True fun _ _ => False where
  ok := by simp
  error := by simp

theorem refuse (role : Role) (n : Tree) :
    Verdict (.error (.unsupported role n.kind n.start) : Except Failure α) False
      fun r m => r = role ∧ m = n where
  ok := by simp
  error failure := by
    constructor
    · intro h
      exact ⟨role, n, ⟨rfl, rfl⟩, (Except.error.inj h).symm⟩
    · rintro ⟨_, _, ⟨rfl, rfl⟩, rfl⟩
      rfl

/-- The same verdict in other words. -/
theorem congr (h : Verdict x P O) (hP : P ↔ Q) (hO : ∀ role n, O role n ↔ R role n) :
    Verdict x Q R where
  ok := h.ok.trans hP
  error failure := by
    simp only [← hO]
    exact h.error failure

/-- A node is accepted or refused by its kind alone. -/
theorem ofKind {κ : Type} {kind : Option κ} {good : Bool} (h : kind.isSome = good) (k : κ → α)
    (role : Role) (t : Tree) :
    Verdict (kind.elim (.error (.unsupported role t.kind t.start)) fun kind => .ok (k kind))
      (good = true) fun r n => good = false ∧ r = role ∧ n = t := by
  subst h
  cases kind with
  | none => exact (refuse role t).congr (by simp) (by simp)
  | some kind => exact (accept (k kind)).congr (by simp) (by simp)

theorem map (h : Verdict x P O) (k : α → β) : Verdict (k <$> x) P O := by
  constructor
  · rw [← h.ok]
    cases x <;> simp [Functor.map, Except.map]
  · intro failure
    rw [← h.error]
    cases x <;> simp [Functor.map, Except.map]

/-- Of two steps the second one is judged only if the first one accepts. -/
theorem bind (h : Verdict x P O) (hg : ∀ a, Verdict (g a) Q R) :
    Verdict (x >>= g) (P ∧ Q) fun role n => O role n ∨ (P ∧ R role n) := by
  cases x with
  | error e =>
    have hP : ¬ P := by simpa using h.ok
    have herror : (Except.error e >>= g : Except Failure β) = .error e := rfl
    refine ⟨by simp [herror, hP], fun failure => ?_⟩
    rw [herror]
    simpa [hP] using h.error failure
  | ok a =>
    have hP : P := h.ok.1 ⟨a, rfl⟩
    have hO : ∀ role n, ¬ O role n := by
      intro role n ho
      cases (h.error _).2 ⟨role, n, ho, rfl⟩
    have hok : (Except.ok a >>= g : Except Failure β) = g a := rfl
    rw [hok]
    exact (hg a).congr (by simp [hP]) (by simp [hP, hO])

/-- Along a list, the first entry that is not accepted is in the way. -/
theorem mapM {P : Tree → Prop} {O : Tree → Role → Tree → Prop} (h : ∀ t, Verdict (f t) (P t) (O t))
    (ts : List Tree) : Verdict (ts.mapM f) (∀ t ∈ ts, P t) fun role n =>
      ∃ before t after, ts = before ++ t :: after ∧ (∀ b ∈ before, P b) ∧ O t role n := by
  induction ts with
  | nil => exact (accept []).congr (by simp) (by simp)
  | cons t ts ih =>
    rw [List.mapM_cons]
    refine ((h t).bind fun y => ih.map (y :: ·)).congr (by simp) fun role n => ?_
    constructor
    · rintro (ho | ⟨ht, before, u, after, rfl, hbefore, ho⟩)
      · exact ⟨[], t, ts, rfl, by simp, ho⟩
      · exact ⟨t :: before, u, after, rfl, List.forall_mem_cons.2 ⟨ht, hbefore⟩, ho⟩
    · rintro ⟨before, u, after, hsplit, hbefore, ho⟩
      cases before with
      | nil =>
        obtain ⟨rfl, -⟩ := List.cons.inj hsplit
        exact .inl ho
      | cons b before =>
        obtain ⟨rfl, rfl⟩ := List.cons.inj hsplit
        obtain ⟨hb, hbefore⟩ := List.forall_mem_cons.1 hbefore
        exact .inr ⟨hb, before, u, after, rfl, hbefore, ho⟩

end Verdict

/-! ### Props -/

/-- The kinds of node that are members of an object type. -/
def Kind.isSignature : Kind → Bool
  | propertySignature | methodSignature | indexSignature | callSignature | constructSignature => true
  | _ => false

namespace Tree

/-- An object type that can be written again: with a comment among its children it keeps its text, and
otherwise all its named children must be signatures. -/
def ObjectShape (t : Tree) : Prop :=
  (∃ c ∈ t.children, c.isComment = true) ∨
    ∀ c ∈ t.children, c.label.named = true → c.kind.isSignature = true

/-- A type that can be written again. -/
def PropsShape (t : Tree) : Prop :=
  t.kind.isTypeReference = true ∨ (t.kind = .objectType ∧ t.ObjectShape) ∨
    (t.kind = .intersectionType ∧ ((∃ m, t.Reaches m ∧ m.kind.isComment = true) ∨
      ∀ m ∈ t.flatten, m.kind = .objectType → m.ObjectShape))

/-- The first child that keeps an object type from being written again. -/
inductive ObjectOffends (t : Tree) : Role → Tree → Prop
  | member {before after : List Tree} {c : Tree} (hcomment : t.hasComment = false)
      (hsplit : t.properChildren = before ++ c :: after)
      (hbefore : ∀ b ∈ before, b.kind.isSignature = true) (hc : c.kind.isSignature = false) :
      ObjectOffends t .typeMember c

/-- The first node that keeps a type from being written again. -/
inductive PropsOffends (t : Tree) : Role → Tree → Prop
  | shape (h : t.kind.isPropsShape = false) : PropsOffends t .propsType t
  | object {role : Role} {n : Tree} (h : t.kind = .objectType) (ho : t.ObjectOffends role n) :
      PropsOffends t role n
  | operand {before after : List Tree} {m n : Tree} {role : Role} (h : t.kind = .intersectionType)
      (hcomment : t.containsComment = false) (hsplit : t.flatten = before ++ m :: after)
      (hbefore : ∀ b ∈ before, b.kind = .objectType → b.ObjectShape) (hm : m.kind = .objectType)
      (ho : m.ObjectOffends role n) : PropsOffends t role n

end Tree

section Props

variable (src : Text) (t : Tree)

theorem verdict_member : Verdict (Member.ofTree src t) (t.kind.isSignature = true)
    fun role n => t.kind.isSignature = false ∧ role = .typeMember ∧ n = t := by
  have hkind : (MemberKind.ofKind? t.kind).isSome = t.kind.isSignature := by
    cases t.kind <;> rfl
  have heq : Member.ofTree src t = (MemberKind.ofKind? t.kind).elim
      (.error (.unsupported .typeMember t.kind t.start)) fun kind => .ok ⟨kind, t.text src⟩ := by
    unfold Member.ofTree
    cases MemberKind.ofKind? t.kind <;> rfl
  rw [heq]
  exact Verdict.ofKind hkind _ _ t

/-- Where there is no comment among the children, the named ones are the children proper. -/
theorem Tree.objectShape_iff (h : t.hasComment = false) :
    t.ObjectShape ↔ ∀ c ∈ t.properChildren, c.kind.isSignature = true := by
  have hnone : ∀ c ∈ t.children, c.isComment = false := by
    simpa [hasComment] using h
  have hproper : ∀ c ∈ t.children, (c ∈ t.properChildren ↔ c.label.named = true) := by
    intro c hc
    have hcomment := hnone c hc
    simp only [properChildren, List.mem_filter, hc, true_and, isProper, isComment] at hcomment ⊢
    cases hn : c.label.named <;> simp_all
  constructor
  · rintro (⟨c, hc, hcomment⟩ | hall)
    · rw [hnone c hc] at hcomment
      cases hcomment
    · intro c hc
      have hmem := (List.mem_filter.1 hc).1
      exact hall c hmem ((hproper c hmem).1 hc)
  · intro hall
    exact .inr fun c hc hn => hall c ((hproper c hc).2 hn)

theorem verdict_object : Verdict (PropsType.ofObject src t) t.ObjectShape t.ObjectOffends := by
  cases h : t.hasComment with
  | true =>
    rw [PropsType.ofObject_of_comment h]
    refine (Verdict.accept _).congr ?_ ?_
    · have hany : ∃ c ∈ t.children, c.isComment = true := by
        simpa [Tree.hasComment] using h
      exact ⟨fun _ => .inl hany, fun _ => trivial⟩
    · refine fun role n => ⟨False.elim, ?_⟩
      rintro ⟨hcomment, -, -, -⟩
      cases h.symm.trans hcomment
  | false =>
    rw [PropsType.ofObject_of_no_comment h]
    refine ((Verdict.mapM (verdict_member src) _).map _).congr (t.objectShape_iff h).symm ?_
    intro role n
    constructor
    · rintro ⟨before, c, after, hsplit, hbefore, hc, rfl, rfl⟩
      exact .member h hsplit hbefore hc
    · rintro ⟨-, hsplit, hbefore, hc⟩
      exact ⟨_, _, _, hsplit, hbefore, hc, rfl, rfl⟩

theorem verdict_operand : Verdict (PropsType.ofMember src t) (t.kind = .objectType → t.ObjectShape)
    fun role n => t.kind = .objectType ∧ t.ObjectOffends role n := by
  unfold PropsType.ofMember
  split
  next h => exact (verdict_object src t).congr (by simp [h]) (by simp [h])
  next h => exact (Verdict.accept _).congr (by simp [h]) (by simp [h])

theorem verdict_props : Verdict (PropsType.ofTree src t) t.PropsShape t.PropsOffends := by
  rcases t.kind.props_cases with hk | hk | hk | hk
  · rw [PropsType.ofTree_of_object hk]
    refine (verdict_object src t).congr (by simp [Tree.PropsShape, hk, Kind.isTypeReference]) ?_
    refine fun role n => ⟨fun h => .object hk h, ?_⟩
    rintro (h | ⟨-, h⟩ | ⟨h, -⟩)
    · rw [hk] at h; cases h
    · exact h
    · cases hk.symm.trans h
  · have hshape : t.PropsShape ↔ (∃ m, t.Reaches m ∧ m.kind.isComment = true) ∨
        ∀ m ∈ t.flatten, m.kind = .objectType → m.ObjectShape := by
      simp [Tree.PropsShape, hk, Kind.isTypeReference]
    rw [← Tree.containsComment_iff] at hshape
    cases hc : t.containsComment with
    | true =>
      rw [PropsType.ofTree_of_comment hk hc]
      refine (Verdict.accept _).congr (by simp [hshape, hc]) fun role n => ⟨False.elim, ?_⟩
      rintro (h | ⟨h, -⟩ | ⟨-, h, -⟩)
      · rw [hk] at h; cases h
      · cases hk.symm.trans h
      · cases hc.symm.trans h
    | false =>
      rw [PropsType.ofTree_of_no_comment hk hc]
      refine ((Verdict.mapM (verdict_operand src) _).map _).congr (by simp [hshape, hc]) ?_
      intro role n
      constructor
      · rintro ⟨before, m, after, hsplit, hbefore, hm, ho⟩
        exact .operand hk hc hsplit hbefore hm ho
      · rintro (h | ⟨h, -⟩ | ⟨-, -, hsplit, hbefore, hm, ho⟩)
        · rw [hk] at h; cases h
        · cases hk.symm.trans h
        · exact ⟨_, _, _, hsplit, hbefore, hm, ho⟩
  · rw [PropsType.ofTree_of_reference hk]
    refine (Verdict.accept _).congr (by simp [Tree.PropsShape, hk]) fun role n => ⟨False.elim, ?_⟩
    rintro (h | ⟨h, -⟩ | ⟨h, -⟩)
    · cases hkind : t.kind <;> simp_all [Kind.isTypeReference, Kind.isPropsShape]
    · rw [h] at hk; cases hk
    · rw [h] at hk; cases hk
  · rw [PropsType.ofTree_of_not_propsShape hk]
    refine (Verdict.refuse _ _).congr ?_ fun role n => ⟨?_, ?_⟩
    · simp only [Tree.PropsShape, false_iff, not_or]
      cases hkind : t.kind <;> simp_all [Kind.isTypeReference, Kind.isPropsShape]
    · rintro ⟨rfl, rfl⟩
      exact .shape hk
    · rintro (h | ⟨h, -⟩ | ⟨h, -⟩)
      · exact ⟨rfl, rfl⟩
      · rw [h] at hk; cases hk
      · rw [h] at hk; cases hk

end Props

/-! ### Parameters -/

/-- The kinds of node that are properties of an object pattern. -/
def Kind.isPatternProperty : Kind → Bool
  | shorthandPropertyPattern | pairPattern | objectAssignmentPattern | restPattern => true
  | _ => false

namespace Tree

/-- A pattern that can take the props: a plain name, or an object pattern of which all properties are
known. -/
def BindingShape (t : Tree) : Prop :=
  t.kind = .identifier ∨
    (t.kind = .objectPattern ∧ ∀ c ∈ t.properChildren, c.kind.isPatternProperty = true)

/-- An entry of a parameter list that can take the props. -/
def EntryShape (t : Tree) : Prop :=
  (t.kind = .requiredParameter ∨ t.kind = .optionalParameter) ∧
    ∃ pattern, t.field? .pattern = some pattern ∧ pattern.BindingShape

/-- A function that can take the props: its bare parameter or the first entry of its parameter list can,
or the list is empty. -/
def ParameterShape (t : Tree) : Prop :=
  (∃ bare, t.field? .parameter = some bare ∧ bare.BindingShape) ∨
    (t.field? .parameter = none ∧ ∃ list, t.field? .parameters = some list ∧
      ∀ first, list.firstProper? = some first → first.EntryShape)

/-- The first node that keeps a pattern from taking the props. -/
inductive BindingOffends (t : Tree) : Role → Tree → Prop
  | pattern (hname : t.kind ≠ .identifier) (hobject : t.kind ≠ .objectPattern) :
      BindingOffends t .firstParameter t
  | property {before after : List Tree} {c : Tree} (h : t.kind = .objectPattern)
      (hsplit : t.properChildren = before ++ c :: after)
      (hbefore : ∀ b ∈ before, b.kind.isPatternProperty = true)
      (hc : c.kind.isPatternProperty = false) : BindingOffends t .patternProperty c

/-- The first node that keeps an entry of a parameter list from taking the props. -/
inductive EntryOffends (t : Tree) : Role → Tree → Prop
  | entry (h : ¬ ((t.kind = .requiredParameter ∨ t.kind = .optionalParameter) ∧
      ∃ pattern, t.field? .pattern = some pattern)) : EntryOffends t .firstParameter t
  | pattern {pattern n : Tree} {role : Role}
      (hk : t.kind = .requiredParameter ∨ t.kind = .optionalParameter)
      (h : t.field? .pattern = some pattern) (ho : pattern.BindingOffends role n) :
      EntryOffends t role n

/-- The first node that keeps a function from taking the props. -/
inductive ParameterOffends (t : Tree) : Role → Tree → Prop
  | missing (hbare : t.field? .parameter = none) (hlist : t.field? .parameters = none) :
      ParameterOffends t .component t
  | bare {bare n : Tree} {role : Role} (h : t.field? .parameter = some bare)
      (ho : bare.BindingOffends role n) : ParameterOffends t role n
  | first {list first n : Tree} {role : Role} (hbare : t.field? .parameter = none)
      (hlist : t.field? .parameters = some list) (h : list.firstProper? = some first)
      (ho : first.EntryOffends role n) : ParameterOffends t role n

end Tree

section Parameters

variable (src : Text) (t : Tree)

theorem verdict_patternProperty : Verdict (PatternProperty.ofTree src t)
    (t.kind.isPatternProperty = true)
    fun role n => t.kind.isPatternProperty = false ∧ role = .patternProperty ∧ n = t := by
  have hkind : (PatternPropertyKind.ofKind? t.kind).isSome = t.kind.isPatternProperty := by
    cases t.kind <;> rfl
  have heq : PatternProperty.ofTree src t = (PatternPropertyKind.ofKind? t.kind).elim
      (.error (.unsupported .patternProperty t.kind t.start)) fun kind => .ok ⟨kind, t.text src⟩ := by
    unfold PatternProperty.ofTree
    cases PatternPropertyKind.ofKind? t.kind <;> rfl
  rw [heq]
  exact Verdict.ofKind hkind _ _ t

theorem verdict_binding : Verdict (Parameter.ofPattern src t) t.BindingShape t.BindingOffends := by
  unfold Parameter.ofPattern
  split
  next hk =>
    refine (Verdict.accept _).congr (by simp [Tree.BindingShape, hk]) fun role n => ⟨False.elim, ?_⟩
    rintro (⟨hname, -⟩ | ⟨h, -⟩)
    · exact hname hk
    · cases hk.symm.trans h
  next hk =>
    refine ((Verdict.mapM (verdict_patternProperty src) t.properChildren).map Parameter.object).congr
      (by simp [Tree.BindingShape, hk]) fun role n => ⟨?_, ?_⟩
    · rintro ⟨before, c, after, hsplit, hbefore, hc, rfl, rfl⟩
      exact .property hk hsplit hbefore hc
    · rintro (⟨-, hobject⟩ | ⟨-, hsplit, hbefore, hc⟩)
      · exact absurd hk hobject
      · exact ⟨_, _, _, hsplit, hbefore, hc, rfl, rfl⟩
  next hname hobject =>
    have hshape : ¬ t.BindingShape := by
      rintro (h | ⟨h, -⟩)
      · exact hname h
      · exact hobject h
    refine (Verdict.refuse .firstParameter t).congr (by simp [hshape]) fun role n => ⟨?_, ?_⟩
    · rintro ⟨rfl, rfl⟩
      exact .pattern hname hobject
    · rintro (⟨-, -⟩ | ⟨h, -⟩)
      · exact ⟨rfl, rfl⟩
      · exact absurd h hobject

variable (props : PropsType)

theorem verdict_entry :
    Verdict (Parameter.annotateListed src props t) t.EntryShape t.EntryOffends := by
  by_cases hentry : (t.kind = .requiredParameter ∨ t.kind = .optionalParameter) ∧
      ∃ pattern, t.field? .pattern = some pattern
  · obtain ⟨hk, pattern, hpattern⟩ := hentry
    rw [Parameter.annotateListed_of_pattern hk hpattern]
    refine ((verdict_binding src pattern).map _).congr (by simp [Tree.EntryShape, hk, hpattern])
      fun role n => ⟨fun h => .pattern hk hpattern h, ?_⟩
    rintro (⟨h⟩ | ⟨-, h, ho⟩)
    · exact absurd ⟨hk, pattern, hpattern⟩ h
    · obtain rfl := Option.some.inj (hpattern.symm.trans h)
      exact ho
  · rw [Parameter.annotateListed_of_no_pattern hentry]
    refine (Verdict.refuse .firstParameter t).congr ?_ fun role n => ⟨?_, ?_⟩
    · refine ⟨False.elim, ?_⟩
      rintro ⟨hk, pattern, hpattern, -⟩
      exact hentry ⟨hk, pattern, hpattern⟩
    · rintro ⟨rfl, rfl⟩
      exact .entry hentry
    · rintro (⟨-⟩ | ⟨hk, hpattern, -⟩)
      · exact ⟨rfl, rfl⟩
      · exact absurd ⟨hk, _, hpattern⟩ hentry

theorem verdict_parameter :
    Verdict (Parameter.annotateFirst src props t) t.ParameterShape t.ParameterOffends := by
  unfold Parameter.annotateFirst
  split
  next bare hbare =>
    refine ((verdict_binding src bare).map fun p => some (p, Parameter.parenthesize src props bare)).congr
      (by simp [Tree.ParameterShape, hbare]) fun role n => ⟨fun h => .bare hbare h, ?_⟩
    rintro (⟨h, -⟩ | ⟨h, ho⟩ | ⟨h, -⟩)
    · cases hbare.symm.trans h
    · obtain rfl := Option.some.inj (hbare.symm.trans h)
      exact ho
    · cases hbare.symm.trans h
  next hbare =>
    split
    next hlist =>
      refine (Verdict.refuse .component t).congr (by simp [Tree.ParameterShape, hbare, hlist])
        fun role n => ⟨?_, ?_⟩
      · rintro ⟨rfl, rfl⟩
        exact .missing hbare hlist
      · rintro (⟨-, -⟩ | ⟨h, -⟩ | ⟨-, h, -⟩)
        · exact ⟨rfl, rfl⟩
        · cases hbare.symm.trans h
        · cases hlist.symm.trans h
    next list hlist =>
      split
      next hfirst =>
        refine (Verdict.accept _).congr (by simp [Tree.ParameterShape, hbare, hlist, hfirst])
          fun role n => ⟨False.elim, ?_⟩
        rintro (⟨-, h⟩ | ⟨h, -⟩ | ⟨-, h, hsome, -⟩)
        · cases hlist.symm.trans h
        · cases hbare.symm.trans h
        · obtain rfl := Option.some.inj (hlist.symm.trans h)
          cases hfirst.symm.trans hsome
      next first hfirst =>
        refine ((verdict_entry src first props).map some).congr
          (by simp [Tree.ParameterShape, hbare, hlist, hfirst])
          fun role n => ⟨fun h => .first hbare hlist hfirst h, ?_⟩
        rintro (⟨-, h⟩ | ⟨h, -⟩ | ⟨-, h, hsome, ho⟩)
        · cases hlist.symm.trans h
        · cases hbare.symm.trans h
        · obtain rfl := Option.some.inj (hlist.symm.trans h)
          obtain rfl := Option.some.inj (hfirst.symm.trans hsome)
          exact ho

end Parameters

/-! ### Components -/

namespace Declaration

/-- The first node that keeps a component from being converted: the value, if it wraps no function, then
a node of the props, and then one at the parameters. -/
inductive Offends (d : Declaration) : Role → Tree → Prop
  | value {p : Tree} (hp : d.props = some p) (hf : FunctionNode.find? d.value = none) :
      Offends d .component d.value
  | props {p n : Tree} {f : FunctionNode} {role : Role} (hp : d.props = some p)
      (hf : FunctionNode.find? d.value = some f) (ho : p.PropsOffends role n) : Offends d role n
  | parameter {p n : Tree} {f : FunctionNode} {role : Role} (hp : d.props = some p)
      (hf : FunctionNode.find? d.value = some f) (hprops : p.PropsShape)
      (ho : f.node.ParameterOffends role n) : Offends d role n

variable (src : Text) (d : Declaration)

theorem verdict_relocation {p : Tree} (hp : d.props = some p) :
    Verdict (d.relocation src p)
      (∃ f, FunctionNode.find? d.value = some f ∧ p.PropsShape ∧ f.node.ParameterShape) d.Offends := by
  unfold relocation
  cases hf : FunctionNode.find? d.value with
  | none =>
    refine (Verdict.refuse .component d.value).congr (by simp) fun role n => ⟨?_, ?_⟩
    · rintro ⟨rfl, rfl⟩
      exact .value hp hf
    · rintro (⟨-, -⟩ | ⟨-, h, -⟩ | ⟨-, h, -⟩)
      · exact ⟨rfl, rfl⟩
      · cases hf.symm.trans h
      · cases hf.symm.trans h
  | some f =>
    refine ((verdict_props src p).bind fun props =>
      (verdict_parameter src f.node props).map fun first => (⟨f, props, first⟩ : Relocation)).congr
      (by simp) fun role n => ⟨?_, ?_⟩
    · rintro (ho | ⟨hprops, ho⟩)
      · exact .props hp hf ho
      · exact .parameter hp hf hprops ho
    · rintro (⟨-, h⟩ | ⟨hp', -, ho⟩ | ⟨hp', h, hprops, ho⟩)
      · cases hf.symm.trans h
      · obtain rfl := Option.some.inj (hp.symm.trans hp')
        exact .inl ho
      · obtain rfl := Option.some.inj (hp.symm.trans hp')
        obtain rfl := Option.some.inj (hf.symm.trans h)
        exact .inr ⟨hprops, ho⟩

theorem verdict_edits : Verdict (d.edits src) (d.props = none ∨ ∃ p f, d.props = some p ∧
    FunctionNode.find? d.value = some f ∧ p.PropsShape ∧ f.node.ParameterShape) d.Offends := by
  unfold edits
  split
  next hp =>
    refine (Verdict.accept _).congr (by simp [hp]) fun role n => ⟨False.elim, ?_⟩
    rintro (⟨h, -⟩ | ⟨h, -⟩ | ⟨h, -⟩) <;> cases hp.symm.trans h
  next p hp =>
    refine ((verdict_relocation src d hp).bind (Q := True) (R := fun _ _ => False) fun move => ?_).congr
      (by simp [hp]) (by simp)
    obtain ⟨function, props, first⟩ := move
    cases first with
    | none => exact Verdict.accept _
    | some first => exact Verdict.accept _

/-- Among the nodes in the way, only props of an unknown shape have the role of a props type. -/
theorem Offends.isPropsShape_eq_false {d : Declaration} {n : Tree} (h : d.Offends .propsType n) :
    ∃ p, d.props = some p ∧ p.kind.isPropsShape = false := by
  cases h with
  | props hp _ ho =>
    cases ho with
    | shape h => exact ⟨_, hp, h⟩
    | object _ ho => cases ho
    | operand _ _ _ _ _ ho => cases ho
  | parameter _ _ _ ho =>
    -- at the parameters no node has this role
    cases ho with
    | bare _ ho => cases ho
    | first _ _ _ ho =>
      cases ho with
      | pattern _ _ ho => cases ho

/-- The props of a declared component have a known shape. -/
theorem isPropsShape_of_declared {src : Text} {tree p : Tree} {d : Declaration}
    (hd : d ∈ declarations src tree) (hp : d.props = some p) : p.kind.isPropsShape = true := by
  obtain ⟨t, -, ht⟩ := mem_declarations.1 hd
  obtain ⟨type, leading, hdeclared⟩ := declaration?_eq_some_iff.1 ht
  rcases componentType?_eq_some hdeclared.component with ⟨-, _, q, -, -, hq, hprops⟩ | ⟨-, -, hprops⟩
  · obtain rfl := Option.some.inj (hp.symm.trans hprops)
    obtain ⟨arguments, -, -, hshape⟩ := argument?_eq_some hq
    exact hshape
  · cases hp.symm.trans hprops

end Declaration

/-- **A component is converted exactly if its parts have the right shapes.**  Without props there is
nothing to ask for.  With props, the value must wrap a function, the props must be a type that can be
written again, and the function must be able to take them.  Otherwise the failure names kind and start of
the first node that is in the way, whatever is queued in the draft.  The props themselves are never the
node that is named: whatever is found as props in a source has a shape that is known. -/
theorem convert_accepts_shapes (draft : Draft) (d : Declaration) :
    ((∃ next, draft.convert d = (next, none)) ↔ d.props = none ∨ ∃ p f, d.props = some p ∧
      FunctionNode.find? d.value = some f ∧ p.PropsShape ∧ f.node.ParameterShape) ∧
    (∀ failure, (∃ left, draft.convert d = (left, some failure)) ↔
      ∃ role n, d.Offends role n ∧ failure = .unsupported role n.kind n.start) ∧
    ∀ src tree, d ∈ declarations src tree → ∀ role n, d.Offends role n → role ≠ .propsType := by
  have hverdict := d.verdict_edits draft.source
  have hok : (∃ next, draft.convert d = (next, none)) ↔ ∃ es, d.edits draft.source = .ok es := by
    rw [Draft.convert_eq]
    cases d.edits draft.source <;> simp
  have herror : ∀ failure, (∃ left, draft.convert d = (left, some failure)) ↔
      d.edits draft.source = .error failure := by
    intro failure
    rw [Draft.convert_eq]
    cases d.edits draft.source <;> simp
  refine ⟨hok.trans hverdict.ok, fun failure => (herror failure).trans (hverdict.error failure), ?_⟩
  rintro src tree hd role n ho rfl
  obtain ⟨p, hp, hshape⟩ := ho.isPropsShape_eq_false
  rw [Declaration.isPropsShape_of_declared hd hp] at hshape
  cases hshape

open Concrete in
/-- `const X: FC<{a: A;export b}> = ([p]) => p`, where both the props and the parameter are in the
way. -/
def exporting : Concrete :=
  constants [declarator "X" (application "FC" (branch .objectType none [token "\x7b",
      branch .propertySignature none [gap "a: A".toList], token ";",
      branch (.other "export_statement") none [gap "export b".toList], token "\x7d"]))
    (branch .arrowFunction (some .value) [branch .formalParameters (some .parameters) [token "(",
        branch .requiredParameter none [branch (.other "array_pattern") (some .pattern)
          [token "[", leaf .identifier none "p", token "]"]], token ")"],
      space, token "=>", space, leaf .identifier none "p"])]

/-- The component of `exporting` is refused for its props, which come before the parameter. -/
theorem exporting_refused : ∃ d ∈ declarations exporting.text exporting.tree,
    (¬ ∃ next, (Draft.ofSource exporting.text).convert d = (next, none)) ∧
    (∃ left, (Draft.ofSource exporting.text).convert d =
      (left, some (.unsupported .typeMember (.other "export_statement") 18))) ∧
    ∀ role n, d.Offends role n → role ≠ .propsType := by
  obtain ⟨d, p, f, a, c, hds, hp, hf, hk, hcomment, hsplit, ha, hc, hkind, hstart⟩ :
      ∃ d p f a c, declarations exporting.text exporting.tree = [d] ∧ d.props = some p ∧
        FunctionNode.find? d.value = some f ∧ p.kind = .objectType ∧ p.hasComment = false ∧
        p.properChildren = [a] ++ c :: [] ∧ a.kind.isSignature = true ∧ c.kind.isSignature = false ∧
        c.kind = .other "export_statement" ∧ c.start = 18 := by
    rw [declarations_eq_filterMap]
    exact ⟨_, _, _, _, _, rfl, rfl, rfl, rfl, rfl, rfl, rfl, rfl, rfl, rfl⟩
  have hd : d ∈ declarations exporting.text exporting.tree := by simp [hds]
  have hoffends : d.Offends .typeMember c :=
    .props hp hf (.object hk (.member hcomment hsplit (by simpa using ha) hc))
  obtain ⟨-, herror, hrole⟩ := convert_accepts_shapes (Draft.ofSource exporting.text) d
  have hfails := (herror _).2 ⟨_, _, hoffends, rfl⟩
  rw [hkind, hstart] at hfails
  refine ⟨d, hd, ?_, hfails, hrole _ _ hd⟩
  rintro ⟨next, hnext⟩
  obtain ⟨left, hleft⟩ := hfails
  cases hleft.symm.trans hnext

end PlainComponents
