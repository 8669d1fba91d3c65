import PlainComponents.Batch.Dialect
import PlainComponents.Batch.Discovery
import PlainComponents.Log.Conversion

/-!
# Runs

A run converts the files below some paths and reports on each.  Work on a file has two parts: reading
it gives a plan (`Plan.ofFile`), and carrying the plan out (`Plan.carryOut`) writes the file, unless
the run is dry.  A file that cannot be read, converted or written is left alone and does not stop the
run.

What a run takes from its surroundings is a parameter, the `Host`: the parser, how temporary files are
made, and whether a pool of workers can be started.  `run` works on the files one after the other, and
so does its log.  Workers that share the files may take their steps in any other order.
-/

namespace PlainComponents

/-- Gives the syntax tree of a text. -/
abbrev Parser := Dialect → Text → Tree

/-- The surroundings of a run. -/
structure Host where
  parse : Parser
  staging : Staging
  /-- Why a pool with the wanted number of workers cannot be started, if it cannot. -/
  poolError : Option Nat → Option String

structure Options where
  /-- Report only, write nothing. -/
  dryRun : Bool
  /-- Keep the converted texts in the reports. -/
  keepOutput : Bool
  parser : ParserChoice
  extensions : List String
  /-- The number of workers.  What a run ends in depends on the number only as far as the pool may fail
  to start, unless two of the paths that are found lead to one file. -/
  jobs : Option Nat
  deriving DecidableEq

/-- The extensions that are wanted unless others are given. -/
def Options.usualExtensions : List String :=
  ["tsx", "ts", "jsx", "js"]

/-- What became of a file. -/
inductive Outcome where
  | modified
  | unmodified
  | failed (reason : String)
  deriving DecidableEq

structure Report where
  path : Path
  outcome : Outcome
  /-- The converted text, if it is kept. -/
  output : Option Text
  deriving DecidableEq

/-! ### One file -/

/-- What is to be done with a file. -/
inductive Plan where
  | unreadable (error : FileError)
  /-- The file cannot be converted. -/
  | refuse (failure : Failure)
  /-- The file declares no components. -/
  | leave
  | write (text : Text)
  deriving DecidableEq

/-- The plan for a source. -/
def Plan.ofSource (tree : Tree) (src : Text) : Plan :=
  match transform src tree with
  | .error failure => refuse failure
  | .ok none => leave
  | .ok (some text) => write text

/-- Reads a file and plans what to do. -/
def Plan.ofFile (parse : Parser) (options : Options) (fs : FileSystem) (path : Path) : Plan :=
  match fs.readText path with
  | .error e => unreadable e
  | .ok src => ofSource (parse (options.parser.dialectOf path) src) src

/-- Carries a plan out. -/
def Plan.carryOut (staging : Staging) (options : Options) (path : Path) (fs : FileSystem) :
    Plan → FileSystem × Report
  | unreadable e => (fs, ⟨path, .failed e.message, none⟩)
  | refuse failure => (fs, ⟨path, .failed failure.message, none⟩)
  | leave => (fs, ⟨path, .unmodified, none⟩)
  | write text =>
    let done : Report := ⟨path, .modified, if options.keepOutput then some text else none⟩
    if options.dryRun then (fs, done)
    else
      match fs.replace staging path (Text.encode text) with
      | (after, none) => (after, done)
      | (after, some e) => (after, ⟨path, .failed e.message, none⟩)

/-- Converts a file. -/
def processFile (host : Host) (options : Options) (fs : FileSystem) (path : Path) :
    FileSystem × Report :=
  (Plan.ofFile host.parse options fs path).carryOut host.staging options path fs

/-- Converts files one after the other. -/
def processFiles (host : Host) (options : Options) (fs : FileSystem) :
    List Path → FileSystem × List Report
  | [] => (fs, [])
  | path :: paths =>
    let (next, report) := processFile host options fs path
    let (last, reports) := processFiles host options next paths
    (last, report :: reports)

/-! ### A whole run -/

/-- The reports of a run, with the number of reports of every outcome. -/
structure Summary where
  modified : Nat
  unmodified : Nat
  failed : Nat
  files : List Report
  deriving DecidableEq

namespace Summary

/-- Nothing done. -/
def empty : Summary :=
  ⟨0, 0, 0, []⟩

/-- Counts one more report. -/
def count (s : Summary) (r : Report) : Summary :=
  match r.outcome with
  | .modified => { s with modified := s.modified + 1 }
  | .unmodified => { s with unmodified := s.unmodified + 1 }
  | .failed _ => { s with failed := s.failed + 1 }

def ofReports (reports : List Report) : Summary :=
  { reports.foldl count empty with files := reports }

def hasFailures (s : Summary) : Bool :=
  0 < s.failed

end Summary

/-- Why a run ends before any file is worked on. -/
inductive RunError where
  | path (error : PathError)
  /-- The pool of workers cannot be started. -/
  | pool (reason : String)
  deriving DecidableEq

def RunError.message : RunError → String
  | path error => error.message
  | pool reason => "failed to start worker pool: " ++ reason

/-- Converts the files below the paths.  The file system that is left comes with the summary, or
with the error: the first path that leads nowhere, or that there are no workers. -/
def run (host : Host) (options : Options) (fs : FileSystem) (roots : List Path) :
    FileSystem × Except RunError Summary :=
  match Discovery.discover fs options.extensions roots with
  | .error e => (fs, .error (.path e))
  | .ok paths =>
    match host.poolError options.jobs with
    | some reason => (fs, .error (.pool reason))
    | none =>
      let (after, reports) := processFiles host options fs paths
      (after, .ok (Summary.ofReports reports))

/-! ### What is logged -/

namespace Log

/-- An event of a run. -/
def runEvent (level : Level) (message : String) (fields : List (String × Value)) : Event :=
  { level, target := "defc::runner", message, fields }

/-- The end of work on a file. -/
def settled (options : Options) (path : Path) (report : Report) : Plan → Event
  | .unreadable e =>
    runEvent .warn "cannot read file"
      [("path", .text (Path.display path)), ("error", .text e.message)]
  | .refuse failure =>
    runEvent .warn "leaving file unchanged"
      [("path", .text (Path.display path)), ("error", .text failure.message)]
  | .leave => runEvent .debug "no component declarations" [("path", .text (Path.display path))]
  | .write _ =>
    match report.outcome with
    | .failed reason =>
      runEvent .warn "cannot write file"
        [("path", .text (Path.display path)), ("error", .text reason)]
    | _ =>
      runEvent .debug "rewrote file"
        [("path", .text (Path.display path)), ("dry_run", .flag options.dryRun)]

/-- The events of one file. -/
def ofFile (host : Host) (options : Options) (fs : FileSystem) (path : Path) : List Event :=
  let plan := Plan.ofFile host.parse options fs path
  let converting :=
    match fs.readText path with
    | .error _ => []
    | .ok src => ofConversion src (host.parse (options.parser.dialectOf path) src)
  converting ++ [settled options path (plan.carryOut host.staging options path fs).2 plan]

/-- The events of files, one after the other. -/
def ofFiles (host : Host) (options : Options) (fs : FileSystem) : List Path → List Event
  | [] => []
  | path :: paths =>
    ofFile host options fs path
      ++ ofFiles host options (processFile host options fs path).1 paths

/-- The end of a run. -/
def finished (s : Summary) : Event :=
  runEvent .info "run finished"
    [("modified", .number s.modified), ("unmodified", .number s.unmodified),
     ("failed", .number s.failed)]

/-- The events of a run. -/
def ofRun (host : Host) (options : Options) (fs : FileSystem) (roots : List Path) : List Event :=
  Discovery.events fs roots ++
    match Discovery.discover fs options.extensions roots with
    | .error _ => []
    | .ok paths =>
      runEvent .debug "discovered files" [("count", .number paths.length)] ::
        match host.poolError options.jobs with
        | some _ => []
        | none =>
          ofFiles host options fs paths
            ++ [finished (Summary.ofReports (processFiles host options fs paths).2)]

end Log

end PlainComponents
