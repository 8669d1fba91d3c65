import Mathlib.Data.List.Basic
import PlainComponents.Proofs.Component.Grammar
import PlainComponents.Proofs.Component.Unwrapping
import PlainComponents.Proofs.Tree.Erasure

/-!
# Comments make no difference

Comments may stand between any two tokens.  Taking them all out of a tree changes neither which components
are found in it, nor the functions inside their values, nor the first parameters and the edits there.
Each step of the analysis commutes with `Tree.erase`: what it finds in the erased tree is what it finds in
the tree, erased (`Declaration.erase`, `FunctionNode.erase`), and what it computes from spans and kinds is
the same.

Only props types look at comments, to keep the text of those that have some.
-/

namespace PlainComponents

open PlainComponents.Tree

/-- The same declaration, with all its nodes erased. -/
def Declaration.erase (d : Declaration) : Declaration where
  typeAlias := d.typeAlias
  declarator := d.declarator.erase
  name := d.name.erase
  ascription := d.ascription.erase
  value := d.value.erase
  props := d.props.map Tree.erase

/-- The same function behind the same number of calls, erased. -/
def FunctionNode.erase (f : FunctionNode) : FunctionNode :=
  { f with node := f.node.erase }

variable {src : Text} {t : Tree}

/-! ### Functions -/

namespace FunctionNode

/-- One step of unwrapping leads to the same node. -/
theorem opens_erase_iff (h : t.CommentsApart) {c' : Tree} {n : Nat} :
    Opens t.erase c' n ↔ ∃ c, Opens t c n ∧ c.erase = c' := by
  constructor
  · intro hopens
    cases hopens with
    | parenthesis hk hc' =>
      rw [kind_erase] at hk
      obtain ⟨c, hc, rfl⟩ := isFirst_counts_erase_iff.1 hc'
      exact ⟨c, .parenthesis hk hc, rfl⟩
    | call hk ha' hak hc' =>
      rw [kind_erase] at hk
      obtain ⟨a, ha, rfl⟩ := (isFirst_playing_erase_iff h).1 ha'
      rw [kind_erase] at hak
      obtain ⟨c, hc, rfl⟩ := isFirst_counts_erase_iff.1 hc'
      exact ⟨c, .call hk ha hak hc, rfl⟩
  · rintro ⟨c, hopens, rfl⟩
    cases hopens with
    | parenthesis hk hc =>
      rw [← kind_erase] at hk
      exact .parenthesis hk (isFirst_counts_erase_iff.2 ⟨c, hc, rfl⟩)
    | call hk ha hak hc =>
      rw [← kind_erase] at hk hak
      exact .call hk ((isFirst_playing_erase_iff h).2 ⟨_, ha, rfl⟩) hak
        (isFirst_counts_erase_iff.2 ⟨c, hc, rfl⟩)

/-- Unwrapping finds the same function. -/
theorem find?_erase (h : t.CommentsApart) : find? t.erase = (find? t).map FunctionNode.erase := by
  induction t using Tree.strongInductionOn with
  | node l cs ih =>
    by_cases hfunction : ∃ k : FunctionKind, k.Of (Tree.node l cs).kind
    · obtain ⟨k, hk⟩ := hfunction
      rw [find?_of_function hk, find?_of_function ((kind_erase _).symm ▸ hk)]
      rfl
    by_cases hopens : ∃ c n, Opens (.node l cs) c n
    · obtain ⟨c, n, hopens⟩ := hopens
      obtain ⟨b, hb, hc⟩ := hopens.exists_child
      have hcs := ih b hb c hc ((h.of_child hb).of_mem hc)
      have hopens' := (opens_erase_iff h).2 ⟨c, hopens, rfl⟩
      rw [find?_of_opens hopens, find?_of_opens hopens', hcs, Option.map_map, Option.map_map]
      rfl
    · -- neither a function nor a wrapper, with comments or without
      have hnone := find?_eq_none_of_not_opens hfunction fun c n hc => hopens ⟨c, n, hc⟩
      have hfunction' : ¬ ∃ k : FunctionKind, k.Of (Tree.node l cs).erase.kind := by
        rwa [kind_erase]
      have hnone' := find?_eq_none_of_not_opens hfunction' fun c' n hc' => by
        obtain ⟨c, hc, -⟩ := (opens_erase_iff h).1 hc'
        exact hopens ⟨c, n, hc⟩
      rw [hnone, hnone', Option.map_none]

end FunctionNode

/-! ### Declarations -/

/-- The second node is the first one, erased. -/
def Erased (t t' : Tree) : Prop :=
  t.CommentsApart ∧ t' = t.erase

theorem rel_erased {x : Option Tree} (h : ∀ c, x = some c → c.CommentsApart) :
    Option.Rel Erased x (x.map Tree.erase) := by
  cases x with
  | none => exact .none
  | some c => exact .some ⟨h c rfl, rfl⟩

namespace Declaration

theorem faithful_erased : Faithful src src Erased where
  kind := by
    rintro t _ ⟨-, rfl⟩
    exact kind_erase t
  text := by
    rintro t _ ⟨-, rfl⟩
    exact text_erase src t
  field? := by
    rintro t _ ⟨h, rfl⟩ f
    rw [h.field?_erase]
    exact rel_erased fun c hc => h.of_child (mem_of_field? hc)
  firstProper? := by
    rintro t _ ⟨h, rfl⟩
    rw [firstProper?_erase]
    exact rel_erased fun c hc => h.of_child (mem_of_firstProper? hc)

/-- The same member of an intersection decides. -/
theorem rel_leading?_erased {t' : Tree} (h : Erased t t') :
    Option.Rel Erased (leading? t) (leading? t') := by
  obtain ⟨h, rfl⟩ := h
  have herase : leading? t.erase = (leading? t).map Tree.erase := by
    unfold leading?
    rw [kind_erase]
    split
    · rw [flatten_erase, List.head?_map]
    · rfl
  rw [herase]
  exact rel_erased fun m hm => h.of_mem (mem_preorder_of_leading? hm)

/-- The same component is read off a declarator. -/
theorem ofDeclarator?_erase (h : t.CommentsApart) :
    ofDeclarator? src t.erase = (ofDeclarator? src t).map Declaration.erase := by
  have hR : Faithful src src Erased := faithful_erased
  have ht : Erased t t.erase := ⟨h, rfl⟩
  rw [← rel_map_iff]
  refine rel_bind (hR.field? ht .name) fun name name' hname => ?_
  rw [hR.kind hname]
  refine rel_bind (rel_self (fun _ => rfl) (guard (name.kind = .identifier))) fun _ _ _ => ?_
  refine rel_bind (hR.field? ht .type) fun ascription ascription' hascription => ?_
  refine rel_bind (hR.field? ht .value) fun value value' hvalue => ?_
  refine rel_bind (hR.firstProper? hascription) fun type type' htype => ?_
  refine rel_bind (rel_leading?_erased htype) fun leading leading' hleading => ?_
  refine rel_bind (hR.rel_componentType? hleading) fun x x' hx => ?_
  obtain ⟨a, props⟩ := x
  obtain ⟨a', props'⟩ := x'
  obtain ⟨rfl, hprops⟩ : a' = a ∧ Option.Rel Erased props props' := hx
  obtain rfl : props' = props.map Tree.erase := by
    cases hprops with
    | none => rfl
    | some hp => rw [hp.2, Option.map_some]
  obtain ⟨-, rfl⟩ := hname
  obtain ⟨-, rfl⟩ := hascription
  obtain ⟨-, rfl⟩ := hvalue
  exact .some rfl

end Declaration

theorem declaration?_erase (h : t.CommentsApart) :
    declaration? src t.erase = (declaration? src t).map Declaration.erase := by
  rw [declaration?, declaration?, kind_erase]
  split
  · exact Declaration.ofDeclarator?_erase h
  · rfl

/-- The same components are declared, in the same order. -/
theorem declarations_erase (h : t.CommentsApart) :
    declarations src t.erase = (declarations src t).map Declaration.erase := by
  have hself : t.preorder = t :: t.preorder.tail := by
    obtain ⟨l, cs⟩ := t
    rw [preorder_node, List.tail_cons]
  rw [declarations_eq_filterMap, declarations_eq_filterMap, preorder_erase h, List.map_filterMap]
  conv_rhs => rw [hself]
  rw [List.filterMap_cons, List.filterMap_cons, declaration?_erase h, List.filterMap_map,
    List.filterMap_filter]
  have hrest : t.preorder.tail.filterMap (fun n =>
      if !n.kind.isComment then (declaration? src ∘ Tree.erase) n else none) =
      t.preorder.tail.filterMap fun n => (declaration? src n).map Declaration.erase := by
    apply List.filterMap_congr
    intro n hn
    have hn := List.mem_of_mem_tail hn
    split
    next => exact declaration?_erase (h.of_mem hn)
    next hk =>
      -- a comment is no declarator
      rw [declaration?_eq_none_of_kind]
      · rfl
      · intro hdeclarator
        rw [hdeclarator] at hk
        exact hk rfl
  rw [hrest]

/-! ### First parameters -/

namespace Parameter

theorem ofPattern_erase (t : Tree) : ofPattern src t.erase = ofPattern src t := by
  have hproperty : ∀ c, PatternProperty.ofTree src c.erase = PatternProperty.ofTree src c := by
    intro c
    rw [PatternProperty.ofTree, PatternProperty.ofTree, kind_erase, text_erase, start_erase]
  unfold ofPattern
  rw [kind_erase]
  split
  · rw [text_erase]
  · rw [properChildren_erase, List.mapM_map]
    simp only [Function.comp_def, hproperty]
  · rw [start_erase]

variable (props : PropsType)

theorem ascribe_erase (h : t.CommentsApart) (pattern : Tree) :
    ascribe props t.erase pattern.erase = ascribe props t pattern := by
  rw [ascribe, ascribe, h.field?_erase, token?_erase t rfl]
  cases t.field? .type with
  | some type => simp
  | none => cases t.token? (.other "?") <;> simp

theorem annotateListed_erase (h : t.CommentsApart) :
    annotateListed src props t.erase = annotateListed src props t := by
  have hpatterns : (∃ pattern, t.erase.field? .pattern = some pattern) ↔
      ∃ pattern, t.field? .pattern = some pattern := by
    rw [h.field?_erase, ← Option.isSome_iff_exists, ← Option.isSome_iff_exists, Option.isSome_map]
  by_cases hentry : (t.kind = .requiredParameter ∨ t.kind = .optionalParameter) ∧
      ∃ pattern, t.field? .pattern = some pattern
  · obtain ⟨hk, pattern, hp⟩ := hentry
    have hk' := hk
    rw [← kind_erase] at hk'
    have hp' : t.erase.field? .pattern = some pattern.erase := by
      rw [h.field?_erase, hp, Option.map_some]
    rw [annotateListed_of_pattern hk hp, annotateListed_of_pattern hk' hp', ofPattern_erase,
      ascribe_erase props h]
  · have hentry' := hentry
    rw [← kind_erase, ← hpatterns] at hentry'
    rw [annotateListed_of_no_pattern hentry, annotateListed_of_no_pattern hentry', kind_erase,
      start_erase]

/-- The first parameter and its edit are the same. -/
theorem annotateFirst_erase (h : t.CommentsApart) :
    annotateFirst src props t.erase = annotateFirst src props t := by
  unfold annotateFirst
  rw [h.field?_erase, h.field?_erase, kind_erase, start_erase]
  cases t.field? .parameter with
  | some bare =>
    rw [Option.map_some]
    simp only [ofPattern_erase, parenthesize, start_erase, stop_erase, text_erase]
  | none =>
    cases hlist : t.field? .parameters with
    | none => rfl
    | some list =>
      simp only [Option.map_some, Option.map_none, firstProper?_erase]
      cases hfirst : list.firstProper? with
      | none => rfl
      | some first =>
        have hapart := (h.of_child (mem_of_field? hlist)).of_child (mem_of_firstProper? hfirst)
        simp only [Option.map_some, annotateListed_erase props hapart]

end Parameter

/-- **Comments are transparent to everything but props types.**  Take all comments out of a tree in which
they are leaves and play no part.  Then the other nodes remain in their order, each with its label, and
the same components are found, with the same aliases and with corresponding nodes.  From corresponding
nodes the same functions are unwrapped, intersections have corresponding members, and a first parameter
is read and annotated in the same way or fails in the same way. -/
theorem comments_transparent (src : Text) (t : Tree) (h : t.CommentsApart) :
    t.erase.preorder =
      t.erase :: (t.preorder.tail.filter fun n => !n.kind.isComment).map Tree.erase ∧
    declarations src t.erase = (declarations src t).map Declaration.erase ∧
    ∀ n ∈ t.preorder, n.erase.label = n.label ∧
      FunctionNode.find? n.erase = (FunctionNode.find? n).map FunctionNode.erase ∧
      n.erase.flatten = n.flatten.map Tree.erase ∧
      ∀ props, Parameter.annotateFirst src props n.erase = Parameter.annotateFirst src props n := by
  refine ⟨preorder_erase h, declarations_erase h, ?_⟩
  intro n hn
  have hn := h.of_mem hn
  exact ⟨label_erase n, FunctionNode.find?_erase hn, flatten_erase n,
    fun props => Parameter.annotateFirst_erase props hn⟩

open Concrete in
/-- The source `const X: FC</*c*/P> = memo(/*d*/(/*e*/p) => p)`. -/
def remarked : Concrete :=
  constants [branch .variableDeclarator none [leaf .identifier (some .name) "X",
    annotation (branch .genericType none [leaf .typeIdentifier (some .name) "FC",
      branch (.other "type_arguments") (some .typeArguments)
        [token "<", leaf .comment none "/*c*/", leaf .typeIdentifier none "P", token ">"]]),
    space, token "=", space,
    branch .callExpression (some .value) [leaf .identifier (some (.other "function")) "memo",
      branch .arguments (some .arguments) [token "(", leaf .comment none "/*d*/",
        branch .arrowFunction none [
          branch .formalParameters (some .parameters) [token "(", leaf .comment none "/*e*/",
            branch .requiredParameter none [leaf .identifier (some .pattern) "p"], token ")"],
          space, token "=>", space, leaf .identifier (some (.other "body")) "p"],
        token ")"]]]]

/-- Without its three comments the source declares the same component, around the same function, whose
first parameter `p` gets the same edit: its type is written behind it. -/
theorem remarked_transparent :
    remarked.tree.CommentsApart ∧
    remarked.tree.erase.preorder.length + 3 = remarked.tree.preorder.length ∧
    ∃ d f, declarations remarked.text remarked.tree = [d] ∧
      declarations remarked.text remarked.tree.erase = [d.erase] ∧
      FunctionNode.find? d.value = some f ∧ f.wrappers = 1 ∧
      FunctionNode.find? d.value.erase = some f.erase ∧
      Parameter.annotateFirst remarked.text (.reference ['P']) f.node =
        .ok (some (.identifier ['p'], ⟨39, 39, ": P".toList⟩)) ∧
      Parameter.annotateFirst remarked.text (.reference ['P']) f.node.erase =
        .ok (some (.identifier ['p'], ⟨39, 39, ": P".toList⟩)) := by
  have hapart : remarked.tree.CommentsApart := by decide
  obtain ⟨hpreorder, hdeclarations, hnodes⟩ :=
    comments_transparent remarked.text remarked.tree hapart
  have hlength : (remarked.tree.preorder.tail.filter fun n => !n.kind.isComment).length + 4 =
      remarked.tree.preorder.length := by decide
  obtain ⟨d, hd, f, hf, hwrappers, hedit⟩ :
      ∃ d, declarations remarked.text remarked.tree = [d] ∧
        ∃ f, FunctionNode.find? d.value = some f ∧ f.wrappers = 1 ∧
          Parameter.annotateFirst remarked.text (.reference ['P']) f.node =
            .ok (some (.identifier ['p'], ⟨39, 39, ": P".toList⟩)) := by
    rw [declarations_eq_filterMap]
    refine ⟨_, rfl, ?_⟩
    exact ⟨_, rfl, rfl, rfl⟩
  have hvalue : d.value ∈ remarked.tree.preorder := by
    obtain ⟨n, hn, hdeclaration⟩ := mem_declarations.1 (hd ▸ List.mem_singleton_self d)
    obtain ⟨type, leading, hdeclared⟩ := declaration?_eq_some_iff.1 hdeclaration
    exact mem_preorder_trans (child_mem_preorder (mem_of_field? hdeclared.value)) hn
  have hnode := mem_preorder_trans (FunctionNode.mem_preorder_of_find? hf) hvalue
  refine ⟨hapart, ?_, d, f, hd, ?_, hf, hwrappers, ?_, hedit, ?_⟩
  · rw [hpreorder, List.length_cons, List.length_map]
    exact hlength
  · rw [hdeclarations, hd]
    rfl
  · rw [(hnodes _ hvalue).2.1, hf]
    rfl
  · rw [(hnodes _ hnode).2.2.2, hedit]

end PlainComponents
