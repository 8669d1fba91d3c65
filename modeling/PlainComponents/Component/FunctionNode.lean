import PlainComponents.Tree.Basic

/-!
# The function of a component

The value of a component is a function, possibly wrapped: in parentheses, or as the first
argument of calls such as `memo(forwardRef(…))`.  `FunctionNode.find?` unwraps the value along
first children proper and counts the calls on the way.
-/

namespace PlainComponents

inductive FunctionKind where
  | arrow
  | function
  deriving DecidableEq

/-- A function found inside its wrappers. -/
structure FunctionNode where
  kind : FunctionKind
  /-- The number of calls around it. -/
  wrappers : Nat
  node : Tree

namespace FunctionNode

/-- The same function with one more call around it. -/
def wrapped (f : FunctionNode) : FunctionNode :=
  { f with wrappers := f.wrappers + 1 }

mutual

/-- The function that a value is or wraps. -/
def find? : Tree → Option FunctionNode
  | .node l cs =>
    match l.kind with
    | .arrowFunction => some ⟨.arrow, 0, .node l cs⟩
    | .functionExpression => some ⟨.function, 0, .node l cs⟩
    | .function => some ⟨.function, 0, .node l cs⟩
    | .parenthesizedExpression => findFirst? cs
    | .callExpression => (findArgument? cs).map wrapped
    | _ => none

/-- The function in the first child proper. -/
def findFirst? : List Tree → Option FunctionNode
  | [] => none
  | c :: cs => if c.isProper then find? c else findFirst? cs

/-- The function in the first argument of a call, where the children of the call are given. -/
def findArgument? : List Tree → Option FunctionNode
  | [] => none
  | .node l as :: cs =>
    if l.field = some .arguments then
      if l.kind = .arguments then findFirst? as else none
    else findArgument? cs

end

theorem findFirst?_eq (cs : List Tree) :
    findFirst? cs = (cs.find? Tree.isProper).bind find? := by
  induction cs with
  | nil => rfl
  | cons c cs ih =>
    by_cases h : c.isProper <;> simp [findFirst?, List.find?, h, ih]

end FunctionNode

end PlainComponents
