import PlainComponents.Component.Transform
import PlainComponents.Log.Event
import PlainComponents.Text.Quoted

/-!
# What a conversion logs

The events of converting one source: every component that is taken up, how its first parameter is
annotated, and the number of edits before they are carried out.  Nothing is logged of a source with
faults or without components, and after a failure nothing more.
-/

namespace PlainComponents

namespace Parameter

/-- The name of a property's kind in log events. -/
def propertyWord : PatternPropertyKind → String
  | .shorthand => "Shorthand"
  | .pair => "Pair"
  | .assignment => "Assignment"
  | .rest => "Rest"

/-- A parameter as log events show it. -/
def describe : Parameter → Text
  | identifier t => "Identifier(".toList ++ Text.quote t ++ [')']
  | object properties =>
    let shown := properties.map fun p =>
      (propertyWord p.kind).toList ++ ['('] ++ Text.quote p.text ++ [')']
    "ObjectPattern([".toList ++ Text.joinWith [',', ' '] shown ++ [']', ')']

end Parameter

namespace Log

def functionWord : FunctionKind → String
  | .arrow => "Arrow"
  | .function => "Function"

/-- A component is taken up. -/
def takenUp (src : Text) (d : Declaration) : Event :=
  { level := .debug
    target := "defc_rewrite::rewrite"
    message := "rewriting component declaration"
    fields :=
      [("name", .text (String.ofList (d.name.text src))), ("alias", .text d.typeAlias.name),
       ("offset", .number d.declarator.start)] }

/-- The first parameter is annotated, or there is none. -/
def relocated (move : Declaration.Relocation) : Event :=
  match move.first with
  | some (parameter, _) =>
    { level := .trace
      target := "defc_rewrite::rewrite"
      message := "annotating first parameter"
      fields :=
        [("kind", .text (functionWord move.function.kind)),
         ("wrappers", .number move.function.wrappers),
         ("param", .text (String.ofList parameter.describe)),
         ("props", .text (String.ofList move.props.render))] }
  | none =>
    { level := .trace
      target := "defc_rewrite::rewrite"
      message := "component takes no parameters"
      fields := [] }

/-- The events of one component. -/
def ofDeclaration (src : Text) (d : Declaration) : List Event :=
  match d.props.map (d.relocation src) with
  | some (.ok move) => [takenUp src d, relocated move]
  | _ => [takenUp src d]

/-- All components are taken up and their edits are carried out. -/
def carriedOut (components edits : Nat) : Event :=
  { level := .debug
    target := "defc_rewrite"
    message := "applying edits"
    fields := [("components", .number components), ("edits", .number edits)] }

/-- The events of the components up to the first failure. -/
def ofDeclarations (src : Text) : List Declaration → List Event
  | [] => []
  | d :: ds =>
    match (Draft.ofSource src).convert d with
    | (_, none) => ofDeclaration src d ++ ofDeclarations src ds
    | (_, some _) => ofDeclaration src d

/-- The events of converting a source. -/
def ofConversion (src : Text) (tree : Tree) : List Event :=
  match tree.firstFault?, declarations src tree with
  | some _, _ => []
  | none, [] => []
  | none, ds =>
    match (Draft.ofSource src).convertAll ds with
    | (draft, none) => ofDeclarations src ds ++ [carriedOut ds.length draft.edits.length]
    | (_, some _) => ofDeclarations src ds

end Log

end PlainComponents
