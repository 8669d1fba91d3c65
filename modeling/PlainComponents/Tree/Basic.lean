import PlainComponents.Text.Basic
import PlainComponents.Tree.Kind

/-!
# Syntax trees

The tree of a source text as a parser hands it over: every node has a kind, a byte range, possibly
a field name in its parent, and a few flags.  The helpers below look at the children of a node.
"Children proper" are the named children that are not comments; most constructs are read off them,
so comments are invisible wherever they stand.

* `Tree.preorder` lists the subtrees, each node before its children;
* `Tree.flatten` opens nested intersection types;
* `Tree.containsComment` looks for a comment below a node, through named nodes.
-/

namespace PlainComponents

/-- What a node says about itself. -/
structure Label where
  kind : Kind
  /-- The part it plays in its parent. -/
  field : Option Field
  /-- Named nodes stand for constructs, the others for tokens. -/
  named : Bool
  /-- The node stands for text that could not be parsed. -/
  isError : Bool
  /-- The node was supplied by the parser without any text. -/
  isMissing : Bool
  /-- The node or one below it is an error or missing. -/
  hasError : Bool
  start : Nat
  stop : Nat
  deriving DecidableEq

/-- A syntax tree. -/
inductive Tree where
  | node (label : Label) (children : List Tree)

namespace Tree

/-! ### A node by itself -/

def label : Tree → Label
  | node l _ => l

def children : Tree → List Tree
  | node _ cs => cs

def kind (t : Tree) : Kind := t.label.kind

def start (t : Tree) : Nat := t.label.start

def stop (t : Tree) : Nat := t.label.stop

/-- The source text of a node. -/
def text (src : Text) (t : Tree) : Text :=
  Text.slice src t.start t.stop

/-- A named node that is not a comment. -/
def isProper (t : Tree) : Bool :=
  t.label.named && !t.kind.isComment

/-- A named node that is a comment. -/
def isComment (t : Tree) : Bool :=
  t.label.named && t.kind.isComment

/-! ### Its children -/

/-- The children proper. -/
def properChildren (t : Tree) : List Tree :=
  t.children.filter isProper

/-- The first child proper. -/
def firstProper? (t : Tree) : Option Tree :=
  t.children.find? isProper

/-- The first child that plays the part `f`. -/
def field? (t : Tree) (f : Field) : Option Tree :=
  t.children.find? fun c => c.label.field = some f

/-- The first token of kind `k`. -/
def token? (t : Tree) (k : Kind) : Option Tree :=
  t.children.find? fun c => !c.label.named && c.kind = k

/-- Whether a comment is among the children. -/
def hasComment (t : Tree) : Bool :=
  t.children.any isComment

/-! ### What lies below -/

mutual

/-- Whether there is a comment below a node, reached through named nodes. -/
def containsComment : Tree → Bool
  | node _ cs => anyContainsComment cs

/-- Whether a named node of the list is a comment or has one below it. -/
def anyContainsComment : List Tree → Bool
  | [] => false
  | c :: cs => (c.label.named && (c.kind.isComment || c.containsComment)) || anyContainsComment cs

end

mutual

/-- The members of an intersection type: its children proper, where intersections among them are
replaced by their members. -/
def flatten : Tree → List Tree
  | node _ cs => flattenAll cs

/-- The members that a list of children contributes. -/
def flattenAll : List Tree → List Tree
  | [] => []
  | c :: cs =>
    if c.isProper then
      if c.kind = .intersectionType then c.flatten ++ flattenAll cs else c :: flattenAll cs
    else flattenAll cs

end

mutual

/-- All subtrees, each before those below it. -/
def preorder : Tree → List Tree
  | node l cs => node l cs :: preorderAll cs

/-- The subtrees of a list of trees, one tree after the other. -/
def preorderAll : List Tree → List Tree
  | [] => []
  | c :: cs => c.preorder ++ preorderAll cs

end

mutual

/-- The number of nodes. -/
def size : Tree → Nat
  | node _ cs => sizeAll cs + 1

/-- The number of nodes of a list of trees. -/
def sizeAll : List Tree → Nat
  | [] => 0
  | c :: cs => c.size + sizeAll cs

end

end Tree

end PlainComponents
