import PlainComponents.Batch.Run

/-!
# Command line arguments

Paths and options may be mixed; `--` ends the options.  Options that take a value take it
attached (`--jobs=4`, `-j4`, `-j=4`) or as the next argument, if that does not look like an
option.

Arguments are read from left to right.  Values that stand by themselves, that is paths and
detached option values, are collected and checked when the next option begins, when a value of
another kind comes, or at the end; an option that is unknown, or a flag with a value, is
reported before that check.

* `Token.ofArgument` tells options and values apart;
* `Reading.take` reads one argument, and `Arguments.read` the whole command line.
-/

namespace PlainComponents

/-- What the command line asks for. -/
structure Arguments where
  paths : List Path
  /-- Print the summary as JSON. -/
  json : Bool
  options : Options
  deriving DecidableEq

/-- Why a command line cannot be read. -/
inductive UsageError where
  | noPaths
  | unknownOption
  /-- An option without its value. -/
  | missingValue
  | unknownParser
  | emptyPath
  | badNumber
  /-- An option that may be given once is given again. -/
  | repeated
  /-- A flag is given a value. -/
  | unexpectedValue
  /-- A value is not UTF-8. -/
  | notText
  /-- The user asks for help. -/
  | help
  deriving DecidableEq

/-- What is said about a command line that cannot be read. -/
def UsageError.message : UsageError → String
  | noPaths => "no paths are given"
  | unknownOption => "unknown option"
  | missingValue => "an option lacks its value"
  | unknownParser => "the parser is one of auto, tsx and ts"
  | emptyPath => "a path is empty"
  | badNumber => "the number of jobs is not a number"
  | repeated => "an option is given twice"
  | unexpectedValue => "a flag takes no value"
  | notText => "a value is not UTF-8"
  | help =>
    "usage: defc [--dry-run] [--print] [--json] [--parser auto|tsx|ts] [--extensions LIST] "
      ++ "[-j JOBS] PATHS..."

namespace Arguments

/-! ### Options and tokens -/

inductive Flag where
  | dryRun
  | print
  | json
  deriving DecidableEq

/-- An option that takes a value. -/
inductive Setting where
  | parser
  | extensions
  | jobs
  deriving DecidableEq

inductive Switch where
  | flag (flag : Flag)
  | setting (setting : Setting)
  | help

/-- The option of a long name. -/
def Switch.ofLongName? (name : Bytes) : Option Switch :=
  if name = Bytes.ofString "dry-run" then some (flag .dryRun)
  else if name = Bytes.ofString "print" then some (flag .print)
  else if name = Bytes.ofString "json" then some (flag .json)
  else if name = Bytes.ofString "parser" then some (setting .parser)
  else if name = Bytes.ofString "extensions" then some (setting .extensions)
  else if name = Bytes.ofString "jobs" then some (setting .jobs)
  else if name = Bytes.ofString "help" then some help
  else none

/-- What an argument looks like. -/
inductive Token where
  /-- The end of the options. -/
  | endOfOptions
  /-- An option, with the value attached to it. -/
  | switch (switch : Switch) (attached : Option Bytes)
  | unknown
  | value (bytes : Bytes)

/-- A long option; what follows the first `=` is its value. -/
def Token.ofLong (rest : Bytes) : Token :=
  let name := rest.takeWhile (· ≠ 0x3d)
  let attached :=
    match rest.dropWhile (· ≠ 0x3d) with
    | [] => none
    | _ :: v => some v
  match Switch.ofLongName? name with
  | some s => switch s attached
  | none => unknown

/-- A short option; what follows its letter is its value, without a leading `=`. -/
def Token.ofShort (letter : UInt8) (rest : Bytes) : Token :=
  if letter = 0x68 then switch .help none
  else if letter = 0x6a then
    match rest with
    | [] => switch (.setting .jobs) none
    | b :: v => switch (.setting .jobs) (some (if b = 0x3d then v else rest))
  else unknown

/-- Reads an argument; a single dash is a value. -/
def Token.ofArgument : Bytes → Token
  | [0x2d, 0x2d] => endOfOptions
  | 0x2d :: 0x2d :: rest => ofLong rest
  | 0x2d :: letter :: rest => ofShort letter rest
  | bytes => value bytes

/-! ### Values -/

/-- The number that decimal digits stand for, if it is below 2^64. -/
def number? (digits : Text) : Option Nat :=
  if digits.isEmpty || digits.any (fun c => !c.isDigit) then none
  else
    let n := digits.foldl (fun n c => n * 10 + (c.toNat - '0'.toNat)) 0
    if n < UInt64.size then some n else none

/-- A number of workers, with or without a plus sign. -/
def readJobs (value : Bytes) : Except UsageError Nat :=
  match Text.decode? value with
  | none => .error .notText
  | some t =>
    let digits := match t with
      | '+' :: rest => rest
      | t => t
    match number? digits with
    | some n => .ok n
    | none => .error .badNumber

def readParser (value : Bytes) : Except UsageError ParserChoice :=
  match ParserChoice.all.find? fun c => Bytes.ofString c.name = value with
  | some c => .ok c
  | none => .error .unknownParser

def readExtension (value : Bytes) : Except UsageError String :=
  match Text.decode? value with
  | some t => .ok (String.ofList t)
  | none => .error .notText

def readPath (value : Bytes) : Except UsageError Path :=
  if value = [] then .error .emptyPath else .ok value

/-! ### Reading -/

/-- What has been read and checked. -/
structure Given where
  paths : List Path
  flags : List Flag
  parser : Option ParserChoice
  extensions : Option (List String)
  jobs : Option Nat

def Given.nothing : Given :=
  ⟨[], [], none, none, none⟩

/-- The values that are collected and not checked yet. -/
inductive Collected where
  | nothing
  | paths (values : List Bytes)
  /-- An option that takes its value from the next argument. -/
  | awaiting (setting : Setting)
  | detached (setting : Setting) (value : Bytes)

/-- Where the reading stands. -/
structure Reading where
  given : Given
  collected : Collected
  /-- Whether the options have ended. -/
  valuesOnly : Bool

/-- Sets an option that may be given once. -/
def once {α : Type} (earlier : Option α) (value : Except UsageError α) :
    Except UsageError (Option α) :=
  match earlier with
  | some _ => .error .repeated
  | none => value.map some

namespace Given

def setFlag (g : Given) (f : Flag) : Except UsageError Given :=
  if f ∈ g.flags then .error .repeated else .ok { g with flags := f :: g.flags }

/-- Checks and takes the value of an option.  Extensions are separated by commas and add up. -/
def set (g : Given) (s : Setting) (value : Bytes) : Except UsageError Given :=
  match s with
  | .parser => do
    let parser ← once g.parser (readParser value)
    return { g with parser }
  | .jobs => do
    let jobs ← once g.jobs (readJobs value)
    return { g with jobs }
  | .extensions => do
    let more ← (Bytes.split 0x2c value).mapM readExtension
    return { g with extensions := some (g.extensions.getD [] ++ more) }

/-- Checks and takes what has been collected. -/
def settle (g : Given) : Collected → Except UsageError Given
  | .nothing => .ok g
  | .paths values => do
    let more ← values.mapM readPath
    return { g with paths := g.paths ++ more }
  | .awaiting _ => .error .missingValue
  | .detached s value => g.set s value

end Given

namespace Reading

def start : Reading :=
  ⟨.nothing, .nothing, false⟩

/-- Takes a value.  It belongs to the option that waits for it, unless the options have ended;
otherwise it is a path. -/
def takeValue (r : Reading) (value : Bytes) : Except UsageError Reading :=
  match r.collected, r.valuesOnly with
  | .awaiting s, false => .ok { r with collected := .detached s value }
  | .paths values, _ => .ok { r with collected := .paths (values ++ [value]) }
  | collected, _ => do
    let given ← r.given.settle collected
    return { r with given, collected := .paths [value] }

/-- Takes an option. -/
def takeSwitch (r : Reading) (s : Switch) (attached : Option Bytes) : Except UsageError Reading :=
  match s, attached with
  | .flag _, some _ => .error .unexpectedValue
  | .help, some _ => .error .unexpectedValue
  | .flag f, none => do
    let given ← (← r.given.settle r.collected).setFlag f
    return { r with given, collected := .nothing }
  | .help, none => do
    let _ ← r.given.settle r.collected
    .error .help
  | .setting s, some value => do
    let given ← (← r.given.settle r.collected).set s value
    return { r with given, collected := .nothing }
  | .setting s, none => do
    let given ← r.given.settle r.collected
    return { r with given, collected := .awaiting s }

/-- Takes one argument. -/
def take (r : Reading) (argument : Bytes) : Except UsageError Reading :=
  if r.valuesOnly then r.takeValue argument
  else
    match Token.ofArgument argument with
    | .endOfOptions => .ok { r with valuesOnly := true }
    | .switch s attached => r.takeSwitch s attached
    | .unknown => .error .unknownOption
    | .value bytes => r.takeValue bytes

end Reading

/-- What the options come to, with the usual values for those not given. -/
def ofGiven (g : Given) : Except UsageError Arguments :=
  if g.paths.isEmpty then .error .noPaths
  else
    .ok
      { paths := g.paths
        json := Flag.json ∈ g.flags
        options :=
          { dryRun := Flag.dryRun ∈ g.flags
            keepOutput := Flag.print ∈ g.flags
            parser := g.parser.getD .auto
            extensions := g.extensions.getD Options.usualExtensions
            jobs := g.jobs } }

/-- Reads the command line. -/
def read (arguments : List Bytes) : Except UsageError Arguments := do
  let r ← arguments.foldlM Reading.take Reading.start
  ofGiven (← r.given.settle r.collected)

end Arguments

end PlainComponents
