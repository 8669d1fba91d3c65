import PlainComponents.Text.Edit
import PlainComponents.Tree.Kind

/-!
# Failures

Why a source cannot be converted.  A failure names the place, and for a construct that is not
supported also its kind and the part it plays in a component.
-/

namespace PlainComponents

/-- The part of a component that has to have a supported shape. -/
inductive Role where
  | component
  | propsType
  | typeMember
  | firstParameter
  | patternProperty
  deriving DecidableEq

def Role.name : Role → String
  | component => "component"
  | propsType => "props type"
  | typeMember => "type member"
  | firstParameter => "first parameter"
  | patternProperty => "pattern property"

/-- Why a source cannot be converted. -/
inductive Failure where
  /-- The tree has a fault that starts at `offset`. -/
  | fault (offset : Nat)
  /-- A node of a kind that is not supported in its role. -/
  | unsupported (role : Role) (kind : Kind) (offset : Nat)
  /-- The conversions of two components do not fit together. -/
  | edits (error : EditError)
  deriving DecidableEq

def EditError.message : EditError → String
  | clash offset => s!"overlapping edits at byte {offset}"
  | beyondEnd => "edit beyond the end of the text"

def Failure.message : Failure → String
  | fault offset => s!"syntax error at byte {offset}"
  | unsupported role kind offset =>
    let part := role.name
    let shape := kind.name
    s!"unsupported {part} `{shape}` at byte {offset}"
  | edits error => error.message

end PlainComponents
