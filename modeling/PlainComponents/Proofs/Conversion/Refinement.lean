import Mathlib
import PlainComponents.Proofs.Conversion.Marks

/-!
# Edits refine the walk

A conversion collects edits component by component, sorts them and carries them out from the last to
the first.  The text that results is the one that a single walk over the tree writes down:
`transform_eq_rebuild`.

The argument has three steps.  A text results only if no two edits clash, so no component was left
out (`Judged.plain`).  Hence the queued edits are those of the walk in another order
(`perm_edits_marks`).  In the order of the walk they follow one another, and so sorting finds exactly
that order (`Text.edit_eq_splice`).
-/

namespace PlainComponents

open Concrete Edit Mark

variable {src out : Text} {note : Tree → Concrete} {tree : Tree} {parts : List (List Edit)}

/-- The walk over a whole source is a splice from its first to its last byte. -/
theorem splices_document (note : Tree → Concrete) (ht : tree.Parsed) (hb : tree.OnBoundaries src) :
    Splices src 0 (marks src (scan src note) .keep tree) src.byteLength
      (document src note tree) := by
  have hroot := hb _ tree.mem_preorder_self
  have hend := Text.le_byteLength_of_isBoundary hroot.2
  have hwalk := splices_rebuild note ht hb .keep
  have hafter := hwalk.append (.gap hend) hroot.1 hroot.2 src.isBoundary_byteLength
  have h := (Splices.gap (Nat.zero_le _)).append hafter src.isBoundary_zero hroot.1
    src.isBoundary_byteLength
  rw [List.append_nil, List.nil_append] at h
  exact h

/-- If nothing clashes, no component is left out. -/
theorem Judged.plain (hnote : Annotates src note tree) (ht : tree.Parsed)
    (h : Judged src (declarations src tree) parts) (hapart : parts.flatten.Pairwise Apart) :
    ∀ c, skipped c ∈ marks src (scan src note) .keep tree → c.Plain src := by
  intro c hc
  refine plain_of_skipped ht ?_ hc
  have hperm := (h.perm_edits hnote ht).trans (edits_perm (perm_expand_root src note tree)).symm
  exact (pairwise_apart_perm hperm).1 hapart

/-- The converted text is the text of the walk, whatever the walk writes at the parameters as long as it
reads as the annotations do. -/
theorem eq_textAll_document (hnote : Annotates src note tree) (ht : tree.Parsed)
    (hb : tree.OnBoundaries src) (h : transform src tree = .ok (some out)) :
    out = textAll (document src note tree) := by
  obtain ⟨parts, hparts, hedit⟩ := exists_judged_of_transform_eq_ok h
  have hapart := Text.apart_of_edit_eq_ok hedit
  have hwalk := splices_document note ht hb
  have hperm := (hparts.perm_edits hnote ht).trans
    (perm_edits_marks (hparts.plain hnote ht hapart)).symm
  rw [Text.edit_eq_splice hapart hperm hwalk.fits hwalk.boundaries] at hedit
  rw [hwalk.text]
  exact (Except.ok.inj hedit).symm

/-- The annotation for props, as text in front of no node. -/
def plainNote (src : Text) (p : Tree) : Concrete :=
  match PropsType.ofTree src p with
  | .ok props => .gap (Parameter.ascription props)
  | .error _ => .gap []

theorem annotates_plainNote (src : Text) (tree : Tree) : Annotates src (plainNote src) tree := by
  intro p _ props h
  rw [plainNote, h]
  rfl

/-- **A converted source is what one walk over its tree writes down.**  The walk copies every node and
every gap, also before and behind the tree.  It leaves out what stands between the name and the end of
the annotation of each component, and it writes the props at the first parameter of the function that
the value wraps. -/
theorem transform_eq_rebuild (ht : tree.Parsed) (hb : tree.OnBoundaries src)
    (h : transform src tree = .ok (some out)) :
    out = textAll (.gap (src.slice 0 tree.start) :: (rebuild src (plainNote src) .keep tree ++
      [.gap (src.slice tree.stop src.byteLength)])) :=
  eq_textAll_document (annotates_plainNote src tree) ht hb h

/-- `const X: FC<P> = memo((p?: Q) => { const Y: FC<{ b: B; }> & Z = q => q })`, where one component
stands in the body of another, which is wrapped in a call and has an annotation to replace. -/
def nested : Concrete :=
  constants [declarator "X" (application "FC" (leaf .typeIdentifier none "P"))
    (branch .callExpression (some .value) [leaf .identifier (some (.other "function")) "memo",
      branch .arguments (some .arguments) [token "(", branch .arrowFunction none [
        branch .formalParameters (some .parameters) [token "(",
          branch .optionalParameter none [leaf .identifier (some .pattern) "p", token "?",
            annotation (leaf .typeIdentifier none "Q")], token ")"],
        space, token "=>", space,
        branch (.other "statement_block") (some (.other "body")) [token "\x7b", space,
          branch (.other "lexical_declaration") none [token "const", space,
            declarator "Y" (branch .intersectionType none [
                application "FC" (branch .objectType none [token "\x7b", space,
                  branch .propertySignature none [gap "b: B".toList], token ";", space,
                  token "\x7d"]),
                space, token "&", space, leaf .typeIdentifier none "Z"])
              (arrow (some .value) "q" (leaf .identifier none "q"))],
          space, token "\x7d"]],
        token ")"]])]

/-- What `nested` is converted to. -/
def nestedConverted : Text :=
  "const X = memo((p?: P) => \x7b const Y = (q: \x7b b: B \x7d) => q \x7d)".toList

theorem transform_nested : transform nested.text nested.tree = .ok (some nestedConverted) := by
  cbv

/-- The walk over `nested` writes both components down without their annotations. -/
theorem nested_rebuilt :
    nested.tree.Parsed ∧ nested.tree.OnBoundaries nested.text ∧
    transform nested.text nested.tree = .ok (some nestedConverted) ∧
    nestedConverted = textAll (.gap (nested.text.slice 0 nested.tree.start) ::
      (rebuild nested.text (plainNote nested.text) .keep nested.tree ++
        [.gap (nested.text.slice nested.tree.stop nested.text.byteLength)])) := by
  have ht : nested.tree.Parsed := ⟨by decide, by decide, by decide⟩
  have hb : nested.tree.OnBoundaries nested.text := by decide
  exact ⟨ht, hb, transform_nested, transform_eq_rebuild ht hb transform_nested⟩

end PlainComponents
