import PlainComponents.Text.Lossy

/-!
# Paths

A path is a byte string in which slashes separate names.  Two readings of it matter:

* its components, by which paths are ordered and told apart (`Path.key`): repeated and trailing
  slashes and a `.` that does not lead do not count;
* its steps, by which a file system is searched (`Path.steps`): every slash says that what comes
  before it is a directory.
-/

namespace PlainComponents

/-- A byte string. -/
abbrev Bytes := List UInt8

namespace Bytes

def ofString (s : String) : Bytes :=
  Text.encode s.toList

/-- The parts between the occurrences of a byte. -/
def split (separator : UInt8) : Bytes → List Bytes
  | [] => [[]]
  | b :: bs =>
    if b = separator then [] :: split separator bs
    else
      match split separator bs with
      | [] => [[b]]
      | part :: parts => (b :: part) :: parts

end Bytes

/-- The name of an entry in a directory. -/
abbrev Name := Bytes

/-- A path as it is written. -/
abbrev Path := Bytes

namespace Path

def slash : UInt8 := 0x2f

def dot : UInt8 := 0x2e

/-- What a path is shown as. -/
def display (p : Path) : String :=
  String.ofList (Text.decodeLossy p)

def isAbsolute (p : Path) : Bool :=
  p.head? = some slash

/-! ### Components -/

inductive Component where
  | root
  /-- A leading `.`. -/
  | current
  | parent
  | name (name : Name)
  deriving DecidableEq

/-- The component that a part between slashes stands for. -/
def Component.ofPart? (part : Bytes) : Option Component :=
  if part = [] then none
  else if part = [dot] then none
  else if part = [dot, dot] then some parent
  else some (name part)

/-- The components of a path. -/
def components (p : Path) : List Component :=
  let parts := Bytes.split slash p
  let leading :=
    if isAbsolute p then [Component.root]
    else if parts.head? = some [dot] then [Component.current]
    else []
  leading ++ parts.filterMap Component.ofPart?

/-- Components as byte strings: the root comes first, then `.`, then `..`, then the names in byte
order. -/
def Component.key : Component → Bytes
  | root => [0]
  | current => [1]
  | parent => [2]
  | name n => 3 :: n

/-- Paths are ordered, and told apart, by their components. -/
def key (p : Path) : List Bytes :=
  (components p).map Component.key

/-- Whether `p` comes before `q` or has the same components. -/
def notAfter (p q : Path) : Bool :=
  key p ≤ key q

/-- Removes every path that has the components of the one kept before it, where `kept` comes before
the list. -/
def dropRepeats (kept : Path) : List Path → List Path
  | [] => [kept]
  | p :: ps => if key p = key kept then dropRepeats kept ps else kept :: dropRepeats p ps

/-- The paths in order, and of those with the same components the first one of the list. -/
def arrange (ps : List Path) : List Path :=
  match ps.mergeSort notAfter with
  | [] => []
  | p :: ps => dropRepeats p ps

/-! ### Names and extensions -/

/-- The extension of a name: what follows its last dot, unless that dot comes first. -/
def extensionOfName? (n : Name) : Option Bytes :=
  let reversed := n.reverse
  match reversed.dropWhile (· ≠ dot) with
  | _ :: _ :: _ => some (reversed.takeWhile (· ≠ dot)).reverse
  | _ => none

/-- The extension of the last component. -/
def extension? (p : Path) : Option Bytes :=
  match (components p).getLast? with
  | some (.name n) => extensionOfName? n
  | _ => none

/-- Whether the extension of a path is one of the list. -/
def hasExtension (p : Path) (extensions : List String) : Bool :=
  (extension? p).any fun e => extensions.any fun s => Bytes.ofString s = e

/-- The path of an entry of the directory at `p`. -/
def join (p : Path) (n : Name) : Path :=
  if p.getLast? = some slash then p ++ n else p ++ [slash] ++ n

/-! ### Steps -/

/-- One move in a file system, from a directory. -/
inductive Step where
  | stay
  | up
  | into (name : Name)
  deriving DecidableEq

def Step.ofPart (part : Bytes) : Step :=
  if part = [] then stay
  else if part = [dot] then stay
  else if part = [dot, dot] then up
  else into part

/-- The moves that lead to a path from where it starts. -/
def steps (p : Path) : List Step :=
  (Bytes.split slash p).map Step.ofPart

end Path

end PlainComponents
