import PlainComponents.Batch.Path

/-!
# Dialects

A source is parsed as TypeScript or as TSX, by its extension or as the user chooses.
-/

namespace PlainComponents

inductive Dialect where
  | tsx
  | typescript
  deriving DecidableEq

/-- Only `ts`, `mts` and `cts` files are plain TypeScript. -/
def Dialect.ofPath (p : Path) : Dialect :=
  if p.hasExtension ["ts", "mts", "cts"] then typescript else tsx

/-- How the dialect of a file is chosen. -/
inductive ParserChoice where
  | auto
  | tsx
  | ts
  deriving DecidableEq

namespace ParserChoice

def name : ParserChoice → String
  | auto => "auto"
  | tsx => "tsx"
  | ts => "ts"

def all : List ParserChoice :=
  [auto, tsx, ts]

def ofName? (s : String) : Option ParserChoice :=
  all.find? fun c => c.name = s

/-- The dialect of a file under a choice. -/
def dialectOf (choice : ParserChoice) (p : Path) : Dialect :=
  match choice with
  | auto => Dialect.ofPath p
  | tsx => .tsx
  | ts => .typescript

end ParserChoice

end PlainComponents
