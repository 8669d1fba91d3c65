import PlainComponents.Log.Render
import PlainComponents.Program.Invocation
import PlainComponents.Program.Workspace

/-!
# Command line

Reads the workspace from standard input, invokes the program on it, prints what it says and
writes the files that it changed.
-/

namespace PlainComponents

namespace CommandLine

/-- The lines of a stream. -/
partial def readLines (input : IO.FS.Stream) : IO (List Text) := do
  let line ← input.getLine
  if line.isEmpty then return []
  return line.toList :: (← readLines input)

/-- Writes the files that differ. -/
def writeChanges (before after : FileSystem) : IO Unit :=
  for (location, entry) in after.entries do
    match entry, before.get? location == some entry with
    | .file _ contents, false =>
      IO.FS.writeBinFile (Path.display (location.foldl Path.join [Path.dot])) contents.toByteArray
    | _, _ => pure ()

def printLine (format : Log.Format) : Invocation.Line → IO Unit
  | .text s => IO.eprintln s
  | .event e => IO.eprintln (e.line format)

/-- Invokes the program on a workspace. -/
def serve (env : Log.Environment) (arguments : List String) (w : Workspace) : IO UInt32 := do
  let result := Invocation.invoke w.host env w.files (arguments.map Bytes.ofString)
  IO.print (String.ofList result.output)
  result.errors.forM (printLine env.outputFormat)
  writeChanges w.files result.fileSystem
  return result.status.toUInt32

end CommandLine

end PlainComponents

def main (arguments : List String) : IO UInt32 := do
  let env : PlainComponents.Log.Environment :=
    ⟨← IO.getEnv "DEFC_LOG", ← IO.getEnv "RUST_LOG", ← IO.getEnv "DEFC_LOG_FORMAT"⟩
  let lines ← PlainComponents.CommandLine.readLines (← IO.getStdin)
  match PlainComponents.Workspace.ofLines? lines with
  | some w => PlainComponents.CommandLine.serve env arguments w
  | none =>
    IO.eprintln "defc: cannot read the workspace"
    return 2
