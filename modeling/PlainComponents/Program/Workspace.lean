import PlainComponents.Batch.Run
import PlainComponents.Tree.Outline

/-!
# Workspaces

A workspace is what an invocation works on: the files, and the trees that a parser gave for
their texts.  It is written line by line, as words separated by blanks; names, texts and
contents stand in hexadecimal digits, after an `x` so that no word is empty:

* `directory PATH`, `file MODE PATH CONTENTS` and `link PATH TARGET` add an entry;
* `locked PATH` locks a directory that is there;
* `tree DIALECT TEXT` begins the tree of a text, and the lines `node KIND FIELD FLAGS START STOP
  ARITY` that follow are its outline.
-/

namespace PlainComponents

/-- The outline of the tree of a text. -/
structure Parse where
  dialect : Dialect
  source : Text
  nodes : List (Label × Nat)

structure Workspace where
  files : FileSystem
  /-- The parses, the last one first. -/
  parses : List Parse

namespace Workspace

def empty : Workspace :=
  ⟨.empty, []⟩

/-! ### Words -/

/-- The value of a digit in bases up to 16. -/
def digit? (c : Char) : Option Nat :=
  if c.isDigit then some (c.toNat - '0'.toNat)
  else if 'a' ≤ c ∧ c ≤ 'f' then some (c.toNat - 'a'.toNat + 10)
  else none

/-- A number in a given base. -/
def number? (base : Nat) (word : Text) : Option Nat :=
  word.foldlM (fun n c => (digit? c).bind fun d => if d < base then some (n * base + d) else none) 0

/-- Bytes from pairs of digits. -/
def bytesOfDigits? : Text → Option Bytes
  | [] => some []
  | [_] => none
  | a :: b :: rest => do
    let high ← digit? a
    let low ← digit? b
    let more ← bytesOfDigits? rest
    return (high * 16 + low).toUInt8 :: more

/-- A word that stands for bytes. -/
def bytes? : Text → Option Bytes
  | 'x' :: digits => bytesOfDigits? digits
  | _ => none

/-- A word that stands for a text. -/
def text? (word : Text) : Option Text := do
  let bytes ← bytes? word
  Text.decode? bytes

def dialect? (word : Text) : Option Dialect :=
  if word = "tsx".toList then some .tsx
  else if word = "typescript".toList then some .typescript
  else none

/-- The words of a line. -/
def words (line : Text) : List Text :=
  (line.foldr
    (fun c parts =>
      if c = ' ' ∨ c = '\n' then [] :: parts
      else
        match parts with
        | [] => [[c]]
        | part :: parts => (c :: part) :: parts)
    [[]]).filter (· ≠ [])

/-! ### Lines -/

/-- The label of a node from its words; the flags are added up from 1 for named, 2 for an error,
4 for missing and 8 for an error at or below the node. -/
def label? (kind field flags start stop : Text) : Option Label := do
  let kind ← text? kind
  let field ← text? field
  let flags ← number? 10 flags
  let start ← number? 10 start
  let stop ← number? 10 stop
  return {
    kind := Kind.ofName (String.ofList kind)
    field := if field = [] then none else some (Field.ofName (String.ofList field))
    named := flags.testBit 0
    isError := flags.testBit 1
    isMissing := flags.testBit 2
    hasError := flags.testBit 3
    start
    stop }

/-- Adds what a line describes. -/
def addLine (w : Workspace) (line : Text) : Option Workspace :=
  match words line with
  | [] => some w
  | word :: arguments =>
    match String.ofList word, arguments with
    | "directory", [path] => do
      let path ← bytes? path
      return { w with files := w.files.put path .directory }
    | "file", [mode, path, contents] => do
      let mode ← number? 8 mode
      let path ← bytes? path
      let contents ← bytes? contents
      return { w with files := w.files.put path (.file mode contents) }
    | "link", [path, target] => do
      let path ← bytes? path
      let target ← bytes? target
      return { w with files := w.files.put path (.link target) }
    | "locked", [path] => do
      let path ← bytes? path
      return { w with files := w.files.lock path }
    | "tree", [dialect, source] => do
      let dialect ← dialect? dialect
      let source ← text? source
      return { w with parses := ⟨dialect, source, []⟩ :: w.parses }
    | "node", [kind, field, flags, start, stop, arity] => do
      let label ← label? kind field flags start stop
      let arity ← number? 10 arity
      match w.parses with
      | [] => none
      | p :: parses =>
        let grown := { p with nodes := p.nodes ++ [(label, arity)] }
        return { w with parses := grown :: parses }
    | _, _ => none

/-- The workspace that the lines describe. -/
def ofLines? (lines : List Text) : Option Workspace :=
  lines.foldlM addLine empty

/-! ### Its parser -/

/-- The tree of a text without any syntax. -/
def blankTree : Tree :=
  .node
    { kind := .other "program", field := none, named := true, isError := false,
      isMissing := false, hasError := false, start := 0, stop := 0 } []

/-- Gives the trees of the workspace; a text that has none is blank. -/
def parser (w : Workspace) : Parser := fun dialect src =>
  ((w.parses.find? fun p => p.dialect = dialect ∧ p.source = src).bind fun p =>
    Tree.ofOutline? p.nodes).getD blankTree

/-- The surroundings of a run on the workspace; its workers can always be started. -/
def host (w : Workspace) : Host where
  parse := w.parser
  staging := .usual
  poolError _ := none

end Workspace

end PlainComponents
