/-!
# Log events

What the program reports about its work.  Events are values: the functions that do the work return
them, and the outer layer prints those that the filter lets through.
-/

namespace PlainComponents

namespace Log

/-- How much an event matters, the gravest first. -/
inductive Level where
  | error
  | warn
  | info
  | debug
  | trace
  deriving DecidableEq

namespace Level

def name : Level → String
  | error => "ERROR"
  | warn => "WARN"
  | info => "INFO"
  | debug => "DEBUG"
  | trace => "TRACE"

/-- Levels as numbers; the gravest is 1. -/
def rank : Level → Nat
  | error => 1
  | warn => 2
  | info => 3
  | debug => 4
  | trace => 5

def all : List Level :=
  [error, warn, info, debug, trace]

end Level

inductive Value where
  | text (value : String)
  | number (value : Nat)
  | flag (value : Bool)
  deriving DecidableEq

/-- An event: its level, the part of the program that it comes from, and what it says. -/
structure Event where
  level : Level
  target : String
  message : String
  fields : List (String × Value)
  deriving DecidableEq

end Log

end PlainComponents
