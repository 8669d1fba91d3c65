import PlainComponents.Component.PropsType

/-!
# The first parameter

The props type moves to the first parameter of the function.  The parameter must be a plain name or
an object pattern.  `annotateFirst` reads it and gives the edit that annotates it:

* the bare parameter of an arrow function is put in parentheses with its type;
* an existing annotation is replaced;
* otherwise the annotation follows the pattern, or the `?` of an optional parameter.
-/

namespace PlainComponents

inductive PatternPropertyKind where
  | shorthand
  | pair
  | assignment
  | rest
  deriving DecidableEq

/-- A property of an object pattern, with its text. -/
structure PatternProperty where
  kind : PatternPropertyKind
  text : Text
  deriving DecidableEq

/-- A parameter that can take the props. -/
inductive Parameter where
  | identifier (text : Text)
  | object (properties : List PatternProperty)
  deriving DecidableEq

/-- The kind of pattern property that a node kind stands for. -/
def PatternPropertyKind.ofKind? : Kind → Option PatternPropertyKind
  | .shorthandPropertyPattern => some shorthand
  | .pairPattern => some pair
  | .objectAssignmentPattern => some assignment
  | .restPattern => some rest
  | _ => none

/-- A property of an object pattern. -/
def PatternProperty.ofTree (src : Text) (t : Tree) : Except Failure PatternProperty :=
  match PatternPropertyKind.ofKind? t.kind with
  | some kind => .ok ⟨kind, t.text src⟩
  | none => .error (.unsupported .patternProperty t.kind t.start)

namespace Parameter

/-- The parameter that a binding pattern stands for. -/
def ofPattern (src : Text) (t : Tree) : Except Failure Parameter :=
  match t.kind with
  | .identifier => .ok (identifier (t.text src))
  | .objectPattern => do
    let properties ← t.properChildren.mapM (PatternProperty.ofTree src)
    return object properties
  | k => .error (.unsupported .firstParameter k t.start)

/-- The annotation that gives a parameter its type. -/
def ascription (props : PropsType) : Text :=
  [':', ' '] ++ props.render

/-- Puts the bare parameter of an arrow function in parentheses, with its type. -/
def parenthesize (src : Text) (props : PropsType) (bare : Tree) : Edit :=
  ⟨bare.start, bare.stop, ['('] ++ bare.text src ++ ascription props ++ [')']⟩

/-- Gives a parameter of a list its type, in place of the one that it has. -/
def ascribe (props : PropsType) (parameter pattern : Tree) : Edit :=
  match parameter.field? .type with
  | some type => ⟨type.start, type.stop, ascription props⟩
  | none =>
    let last := (parameter.token? (.other "?")).getD pattern
    ⟨last.stop, last.stop, ascription props⟩

/-- The first entry of a parameter list and the edit that annotates it. -/
def annotateListed (src : Text) (props : PropsType) (first : Tree) :
    Except Failure (Parameter × Edit) :=
  match first.kind, first.field? .pattern with
  | .requiredParameter, some pattern | .optionalParameter, some pattern => do
    let parameter ← ofPattern src pattern
    return (parameter, ascribe props first pattern)
  | k, _ => .error (.unsupported .firstParameter k first.start)

/-- The first parameter of a function and the edit that annotates it; `none` if the function takes
no parameters. -/
def annotateFirst (src : Text) (props : PropsType) (function : Tree) :
    Except Failure (Option (Parameter × Edit)) :=
  match function.field? .parameter with
  | some bare => do
    let parameter ← ofPattern src bare
    return some (parameter, parenthesize src props bare)
  | none =>
    match function.field? .parameters with
    | none => .error (.unsupported .component function.kind function.start)
    | some list =>
      match list.firstProper? with
      | none => .ok none
      | some first => some <$> annotateListed src props first

end Parameter

end PlainComponents
