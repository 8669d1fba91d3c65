import PlainComponents.Component.Declaration
import PlainComponents.Component.FunctionNode
import PlainComponents.Component.Parameter
import PlainComponents.Tree.Fault

/-!
# Converting a source

A component is converted by two edits: the props type, if there is one, is written at the first
parameter of its function, and the annotation is removed from the declarator.  A draft collects the
edits of one component after the other.  A conversion that fails returns the draft as it has come
to be by then, together with the failure.

* `Draft.convert` queues the edits of one component;
* `Draft.convertAll` queues components until the first failure;
* `transform` converts a whole source: the text, `none` if there is nothing to convert, or the
  failure.
-/

namespace PlainComponents

namespace Declaration

/-- Removes the annotation from the declarator, up to the name. -/
def removal (d : Declaration) : Edit :=
  .deletion d.name.stop d.ascription.stop

/-- What has to be known to move the props to the first parameter. -/
structure Relocation where
  function : FunctionNode
  props : PropsType
  /-- The first parameter with its edit; `none` if there are no parameters. -/
  first : Option (Parameter × Edit)

/-- How the props move to the first parameter of the function. -/
def relocation (src : Text) (d : Declaration) (props : Tree) : Except Failure Relocation := do
  match FunctionNode.find? d.value with
  | none => .error (.unsupported .component d.value.kind d.value.start)
  | some function =>
    let type ← PropsType.ofTree src props
    let first ← Parameter.annotateFirst src type function.node
    return ⟨function, type, first⟩

end Declaration

/-- A source with the edits queued for it. -/
structure Draft where
  source : Text
  edits : List Edit

namespace Draft

/-- A source with nothing queued. -/
def ofSource (src : Text) : Draft :=
  ⟨src, []⟩

/-- Queues an edit. -/
def push (draft : Draft) (e : Edit) : Draft :=
  { draft with edits := draft.edits ++ [e] }

/-- Queues the edit that moves the props of a component to the first parameter of its function; there
is none if the function takes no parameters. -/
def moveProps (draft : Draft) (d : Declaration) (props : Tree) : Draft × Option Failure :=
  match d.relocation draft.source props with
  | .error failure => (draft, some failure)
  | .ok move =>
    match move.first with
    | none => (draft, none)
    | some (_, edit) => (draft.push edit, none)

/-- Queues the edits of a component, the removal of its annotation last. -/
def convert (draft : Draft) (d : Declaration) : Draft × Option Failure :=
  match d.props with
  | none => (draft.push d.removal, none)
  | some props =>
    match draft.moveProps d props with
    | (left, some failure) => (left, some failure)
    | (moved, none) => (moved.push d.removal, none)

/-- Queues the edits of the components up to the first one that cannot be converted. -/
def convertAll (draft : Draft) : List Declaration → Draft × Option Failure
  | [] => (draft, none)
  | d :: ds =>
    match draft.convert d with
    | (next, none) => next.convertAll ds
    | (left, some failure) => (left, some failure)

/-- The source with the queued edits carried out. -/
def finish (draft : Draft) : Except Failure Text :=
  (draft.source.edit draft.edits).mapError .edits

end Draft

/-- The source with the given components converted. -/
def convertDeclarations (src : Text) (ds : List Declaration) : Except Failure Text :=
  match (Draft.ofSource src).convertAll ds with
  | (draft, none) => draft.finish
  | (_, some failure) => .error failure

/-- The converted source, or `none` if it declares no components. -/
def transform (src : Text) (tree : Tree) : Except Failure (Option Text) :=
  match tree.firstFault? with
  | some fault => .error (.fault fault.start)
  | none =>
    match declarations src tree with
    | [] => .ok none
    | d :: ds => some <$> convertDeclarations src (d :: ds)

end PlainComponents
