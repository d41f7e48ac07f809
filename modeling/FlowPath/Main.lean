import FlowPath.CommandLine.Logging
import FlowPath.CommandLine.Run

/-!
# The command

Marks the path that inputs take through a program and prints the graph of a function. Errors and
warnings go to the standard error.
-/

namespace FlowPath.Main

/-- The outcome of an action, or the words for its failure. -/
def attempt {α : Type} (action : IO α) : IO (Except String α) := do
  try
    return .ok (← action)
  catch e => return .error (toString e)

/-- Reads all that is left of a stream. -/
partial def readRest (stream : IO.FS.Stream) (text : String) : IO String := do
  let line ← stream.getLine
  if line.isEmpty then return text else readRest stream (text ++ line)

/-- The files of the system. -/
def files : FileAccess IO where
  read path := attempt (IO.FS.readFile path)
  isFile path := do
    let complete := (← IO.currentDir) / path
    return (← complete.pathExists) && !(← complete.isDir)
  readStdin := attempt do readRest (← IO.getStdin) ""
  write path content := attempt (IO.FS.writeFile path content)

/-- Runs the command and writes its output. -/
def runCommand (directory : String) (args : Arguments) : ExceptT RunError IO RunResult := do
  let result ← CommandLine.run files directory args
  match args.out with
  | some name => CommandLine.writeOutput files directory name result.output
  | none => (IO.print result.output : IO Unit)
  return result

end FlowPath.Main

open FlowPath FlowPath.Main in
def main (line : List String) : IO UInt32 := do
  match Arguments.parse line with
  | .error .help =>
    IO.print Report.usage
    return 0
  | .error .version =>
    IO.println "pathviz 0.1.0"
    return 0
  | .error e =>
    IO.eprint ("error: " ++ e.message ++ "\n\n" ++ Report.usage)
    return 2
  | .ok args =>
    let color := !args.noColor && (← (← IO.getStderr).isTty)
    match ← (runCommand (← IO.currentDir).toString args).run with
    | .ok result =>
      for loop in result.truncated do
        IO.eprintln (Report.truncation color loop)
      return 0
    | .error e =>
      match e.messages with
      | [] => return 1
      | message :: causes =>
        IO.eprintln (Report.error color message causes)
        return 1
