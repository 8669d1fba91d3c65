import PlainComponents.Text.Basic

/-!
# Aliases

The names under which the function component type goes.
-/

namespace PlainComponents

/-- A name of the function component type. -/
inductive Alias where
  | fc
  | sfc
  | functionComponent
  deriving DecidableEq

namespace Alias

def name : Alias → String
  | fc => "FC"
  | sfc => "SFC"
  | functionComponent => "FunctionComponent"

def all : List Alias :=
  [fc, sfc, functionComponent]

/-- The alias spelt exactly like `t`. -/
def ofText? (t : Text) : Option Alias :=
  all.find? fun a => a.name.toList = t

end Alias

end PlainComponents
