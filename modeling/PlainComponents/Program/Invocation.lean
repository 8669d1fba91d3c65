import PlainComponents.Log.Filter
import PlainComponents.Program.Arguments
import PlainComponents.Text.Document

/-!
# The program

One invocation: the command line is read, the files are converted, and the outcome is printed.

* Standard output holds the converted texts, if they are asked for, and the summary, if it is
  wanted as JSON; standard error holds the log and, otherwise, the summary for a reader.
* The status is 2 if the command line cannot be read, the run cannot be done or its summary
  cannot be written, 1 if a file failed, and 0 otherwise.
-/

namespace PlainComponents

namespace Invocation

/-! ### The summary -/

/-- Why a summary cannot be written as JSON. -/
inductive DocumentError where
  /-- A path is not UTF-8. -/
  | notText
  deriving DecidableEq

def DocumentError.message : DocumentError → String
  | notText => "path contains invalid UTF-8 characters"

def reportDocument (r : Report) : Except DocumentError Document :=
  match Text.decode? r.path with
  | none => .error .notText
  | some path =>
    .ok (.object (("path", .string path) ::
      match r.outcome with
      | .modified => [("status", .string "modified".toList)]
      | .unmodified => [("status", .string "unmodified".toList)]
      | .failed reason =>
        [("status", .string "failed".toList), ("reason", .string reason.toList)]))

/-- A summary as JSON. -/
def summaryDocument (s : Summary) : Except DocumentError Document := do
  let files ← s.files.mapM reportDocument
  return .object
    [("modified", .number s.modified), ("unmodified", .number s.unmodified),
     ("failed", .number s.failed), ("files", .array files)]

/-- The converted texts that were kept, each ending in a line break, and under a heading if there
are several. -/
def keptTexts (s : Summary) : Text :=
  let kept := s.files.filterMap fun r => r.output.map fun t => (r.path, t)
  kept.flatMap fun (path, t) =>
    let heading :=
      if kept.length > 1 then "==> ".toList ++ Text.decodeLossy path ++ " <==\n".toList else []
    let ending := if t.getLast? = some '\n' then [] else ['\n']
    heading ++ t ++ ending

/-- A summary for a reader, line by line. -/
def summaryLines (dryRun : Bool) (s : Summary) : List String :=
  let failures := s.files.filterMap fun r =>
    match r.outcome with
    | .failed reason => some ("  failed: " ++ Path.display r.path ++ ": " ++ reason)
    | _ => none
  let done := if dryRun then "would modify" else "modified"
  failures ++
    [s!"{done} {s.modified}, unchanged {s.unmodified}, failed {s.failed}"]

/-! ### The invocation -/

/-- A line of standard error. -/
inductive Line where
  | text (text : String)
  | event (event : Log.Event)

/-- What an invocation leaves behind. -/
structure Result where
  status : Nat
  output : Text
  errors : List Line
  fileSystem : FileSystem

/-- The status of a run that was done. -/
def statusOf (s : Summary) : Nat :=
  if s.hasFailures then 1 else 0

/-- Prints the summary of a run. -/
def conclude (a : Arguments) (log : List Line) (fs : FileSystem) (s : Summary) : Result :=
  let kept := if a.options.keepOutput then keptTexts s else []
  if a.json then
    match summaryDocument s with
    | .ok document => ⟨statusOf s, kept ++ document.pretty 0 ++ ['\n'], log, fs⟩
    | .error e => ⟨2, kept, log ++ [.text ("defc: cannot serialize summary: " ++ e.message)], fs⟩
  else
    ⟨statusOf s, kept, log ++ (summaryLines a.options.dryRun s).map .text, fs⟩

/-- Does what the arguments ask for. -/
def perform (host : Host) (env : Log.Environment) (fs : FileSystem) (a : Arguments) : Result :=
  let log := (env.select (Log.ofRun host a.options fs a.paths)).map Line.event
  match run host a.options fs a.paths with
  | (after, .error e) => ⟨2, [], log ++ [.text ("defc: " ++ e.message)], after⟩
  | (after, .ok summary) => conclude a log after summary

/-- What is left of a command line that cannot be read: a message, and nothing done. -/
def refuse (fs : FileSystem) (e : UsageError) : Result :=
  match e with
  | .help => ⟨0, e.message.toList ++ ['\n'], [], fs⟩
  | e => ⟨2, [], [.text ("defc: " ++ e.message)], fs⟩

/-- One invocation of the program. -/
def invoke (host : Host) (env : Log.Environment) (fs : FileSystem) (arguments : List Bytes) :
    Result :=
  match Arguments.read arguments with
  | .ok a => perform host env fs a
  | .error e => refuse fs e

end Invocation

end PlainComponents
