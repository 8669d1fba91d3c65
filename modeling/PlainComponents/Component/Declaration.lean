import PlainComponents.Component.Alias
import PlainComponents.Tree.Cursor

/-!
# Component declarations

A variable declarator declares a component if its type annotation is the function component
type, under one of its aliases: alone (`FC`), qualified by one plain name (`React.FC`), applied
to a props type (`FC<Props>`), or as the leftmost member of an intersection.  The value must be
present, and the declared name must be a plain identifier.

* `Declaration.ofDeclarator?` reads one declarator;
* `declarations` finds all of them in a tree, in reading order, also those inside others.
-/

namespace PlainComponents

/-- A declared component. -/
structure Declaration where
  typeAlias : Alias
  declarator : Tree
  name : Tree
  ascription : Tree
  value : Tree
  /-- The argument of the component type. -/
  props : Option Tree

namespace Declaration

/-- The alias that a type name spells, with at most one qualifying plain name. -/
def typeAlias? (src : Text) (t : Tree) : Option Alias :=
  match t.kind with
  | .typeIdentifier => Alias.ofText? (t.text src)
  | .nestedTypeIdentifier => do
    let qualifier ← t.field? .module
    guard (qualifier.kind = .identifier)
    let name ← t.field? .name
    Alias.ofText? (name.text src)
  | _ => none

/-- The type that decides: the leftmost member of an intersection, else the type itself. -/
def leading? (t : Tree) : Option Tree :=
  if t.kind = .intersectionType then t.flatten.head? else some t

/-- The props argument of an applied type: the first type argument, if its shape allows. -/
def argument? (t : Tree) : Option Tree := do
  let arguments ← t.field? .typeArguments
  let props ← arguments.firstProper?
  guard props.kind.isPropsShape
  return props

/-- The alias and the props of a component type that is no intersection. -/
def componentType? (src : Text) (t : Tree) : Option (Alias × Option Tree) :=
  match t.kind with
  | .genericType => do
    let name ← t.field? .name
    let typeAlias ← typeAlias? src name
    let props ← argument? t
    return (typeAlias, some props)
  | _ => do
    let typeAlias ← typeAlias? src t
    return (typeAlias, none)

/-- The component that a declarator declares, if any. -/
def ofDeclarator? (src : Text) (t : Tree) : Option Declaration := do
  let name ← t.field? .name
  guard (name.kind = .identifier)
  let ascription ← t.field? .type
  let value ← t.field? .value
  let type ← ascription.firstProper?
  let leading ← leading? type
  let (typeAlias, props) ← componentType? src leading
  return { typeAlias, declarator := t, name, ascription, value, props }

end Declaration

/-- The component that a node declares, if it is a declarator. -/
def declaration? (src : Text) (t : Tree) : Option Declaration :=
  if t.kind = .variableDeclarator then Declaration.ofDeclarator? src t else none

/-- All component declarations of a tree, in reading order. -/
def declarations (src : Text) (t : Tree) : List Declaration :=
  (Cursor.top t).walk.filterMap (declaration? src)

end PlainComponents
