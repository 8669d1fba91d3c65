import PlainComponents.Tree.Basic

/-!
# Faults

A fault is a node that the parser marked as erroneous or supplied itself.  `Tree.firstFault?` finds
the first one in reading order by following the error flags down from a node.
-/

namespace PlainComponents

namespace Tree

/-- An erroneous or missing node. -/
def isFault (t : Tree) : Bool :=
  t.label.isError || t.label.isMissing

mutual

/-- The first fault at or below a node with the error flag: the node itself if it is one, else the
first fault of its first flagged child. A flagged node without a flagged child stands for itself.
-/
def firstFault? : Tree → Option Tree
  | node l cs =>
    if !l.hasError then none
    else if l.isError || l.isMissing then some (node l cs)
    else some ((firstFaultIn? cs).getD (node l cs))

/-- The first fault in the first flagged tree of a list. -/
def firstFaultIn? : List Tree → Option Tree
  | [] => none
  | c :: cs => if c.label.hasError then c.firstFault? else firstFaultIn? cs

end

end Tree

end PlainComponents
