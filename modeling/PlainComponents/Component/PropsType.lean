import PlainComponents.Component.Failure
import PlainComponents.Tree.Basic

/-!
# Props types

The props type of a component, taken out of its declaration so that it can be written again at
the first parameter.  References keep their text; object types become literals, which are laid
out on one line; intersections are flattened.  A type with comments where the layout would lose
them keeps its text as well.

* `PropsType.ofTree` takes a type out of the source, `PropsType.render` writes it;
* an object type keeps the separator it uses and the blank after its brace.
-/

namespace PlainComponents

inductive MemberKind where
  | property
  | method
  | index
  | call
  | construct
  deriving DecidableEq

/-- A member of an object type, with its text. -/
structure Member where
  kind : MemberKind
  text : Text
  deriving DecidableEq

inductive Separator where
  | comma
  | semicolon
  deriving DecidableEq

/-- An object type. -/
structure Literal where
  members : List Member
  separator : Separator
  /-- Whether there is a blank inside the braces. -/
  padded : Bool
  deriving DecidableEq

/-- A props type. -/
inductive PropsType where
  | reference (text : Text)
  | literal (literal : Literal)
  | intersection (members : List PropsType)

/-! ### Writing -/

def Separator.text : Separator → Text
  | comma => [',', ' ']
  | semicolon => [';', ' ']

/-- An object type on one line. -/
def Literal.render (l : Literal) : Text :=
  if l.members.isEmpty then ['\x7b', '\x7d']
  else
    let pad : Text := if l.padded then [' '] else []
    ['\x7b'] ++ pad ++ Text.joinWith l.separator.text (l.members.map Member.text) ++ pad ++ ['\x7d']

namespace PropsType

mutual

/-- The text of a props type. -/
def render : PropsType → Text
  | reference t => t
  | literal l => l.render
  | intersection ms => Text.joinWith [' ', '&', ' '] (renderAll ms)

/-- The texts of a list of props types. -/
def renderAll : List PropsType → List Text
  | [] => []
  | p :: ps => p.render :: renderAll ps

end

end PropsType

/-! ### Taking out of the source -/

/-- The kind of member that a node kind stands for. -/
def MemberKind.ofKind? : Kind → Option MemberKind
  | .propertySignature => some property
  | .methodSignature => some method
  | .indexSignature => some index
  | .callSignature => some call
  | .constructSignature => some construct
  | _ => none

/-- A member of an object type. -/
def Member.ofTree (src : Text) (t : Tree) : Except Failure Member :=
  match MemberKind.ofKind? t.kind with
  | some kind => .ok ⟨kind, t.text src⟩
  | none => .error (.unsupported .typeMember t.kind t.start)

/-- The separator that an object type uses. -/
def Separator.ofTree (t : Tree) : Separator :=
  match t.token? (.other ",") with
  | some _ => comma
  | none => semicolon

/-- Whether a blank follows the opening brace. -/
def Literal.isPadded (src : Text) (t : Tree) : Bool :=
  t.children.head?.any fun brace => Text.isBlankAt src brace.stop

namespace PropsType

/-- An object type; one with comments among its members keeps its text. -/
def ofObject (src : Text) (t : Tree) : Except Failure PropsType :=
  if t.hasComment then .ok (reference (t.text src))
  else do
    let members ← t.properChildren.mapM (Member.ofTree src)
    return literal ⟨members, Separator.ofTree t, Literal.isPadded src t⟩

/-- A member of an intersection: an object type is laid out, anything else keeps its text. -/
def ofMember (src : Text) (t : Tree) : Except Failure PropsType :=
  if t.kind = .objectType then ofObject src t else .ok (reference (t.text src))

/-- The props type that a node stands for. -/
def ofTree (src : Text) (t : Tree) : Except Failure PropsType :=
  match t.kind with
  | .objectType => ofObject src t
  | .intersectionType =>
    if t.containsComment then .ok (reference (t.text src))
    else do
      let members ← t.flatten.mapM (ofMember src)
      return intersection members
  | k =>
    if k.isTypeReference then .ok (reference (t.text src))
    else .error (.unsupported .propsType k t.start)

end PropsType

end PlainComponents
