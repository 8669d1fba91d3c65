import PlainComponents.Log.Event

/-!
# Log settings

The environment says which events are printed and how.  A filter is a list of items separated by
commas.  An item is a level, which holds for every target, or `target=level`, which holds for
all targets that begin so, or a target without a level, which lets all levels through.  The
longest item that holds for a target decides, and of two items for the same targets the later one.
-/

namespace PlainComponents

namespace Log

/-- How events are printed. -/
inductive Format where
  | text
  | json
  deriving DecidableEq

/-- The word `json` in any case asks for JSON, anything else for text. -/
def Format.ofString (s : String) : Format :=
  if s.toLower = "json" then json else text

/-- One item of a filter: targets that begin with `target` are let through up to a rank. -/
structure Rule where
  target : String
  rank : Nat
  deriving DecidableEq

abbrev Filter := List Rule

/-- The rank that a level word stands for; `off` lets nothing through. -/
def rank? (s : String) : Option Nat :=
  let word := s.toUpper
  if word = "OFF" ∨ s = "0" then some 0
  else (Level.all.find? fun l => l.name = word ∨ (toString l.rank) = s).map Level.rank

/-- One item. -/
def Rule.ofString? (s : String) : Option Rule :=
  match rank? s with
  | some rank => some ⟨"", rank⟩
  | none =>
    match s.splitOn "=" with
    | [target] => some ⟨target, Level.trace.rank⟩
    | [target, ""] => some ⟨target, Level.trace.rank⟩
    | [target, level] => (rank? level).map (⟨target, ·⟩)
    | _ => none

/-- All items that can be read. -/
def Filter.ofString (s : String) : Filter :=
  ((s.splitOn ",").filter (· ≠ "")).filterMap Rule.ofString?

/-- Of two rules that hold for a target, the one that decides. -/
def Rule.stronger (a b : Rule) : Rule :=
  if b.target.length < a.target.length then a else b

/-- The rule that decides on a target. -/
def Filter.ruleFor? (filter : Filter) (target : String) : Option Rule :=
  (filter.filter fun r => r.target.toList.isPrefixOf target.toList).foldl
    (fun best r => some ((best.map fun a => a.stronger r).getD r)) none

/-- Whether an event is printed; without a rule for its target only errors are. -/
def Filter.allows (filter : Filter) (e : Event) : Bool :=
  e.level.rank ≤ ((filter.ruleFor? e.target).map Rule.rank).getD Level.error.rank

/-- The settings that the environment holds. -/
structure Environment where
  /-- The filter. -/
  log : Option String
  /-- The filter where `log` is not set. -/
  fallback : Option String
  format : Option String

/-- The filter that is in force; without one nothing is printed. -/
def Environment.filter? (env : Environment) : Option Filter :=
  (env.log <|> env.fallback).map Filter.ofString

/-- How events are printed. -/
def Environment.outputFormat (env : Environment) : Format :=
  Format.ofString (env.format.getD "")

/-- The events that are printed. -/
def Environment.select (env : Environment) (events : List Event) : List Event :=
  match env.filter? with
  | none => []
  | some filter => events.filter filter.allows

end Log

end PlainComponents
