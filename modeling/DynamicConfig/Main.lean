import DynamicConfig.CommandLine
/-!
# The program

It reads the files that its arguments name, and its input line by line.
-/

namespace DynamicConfig.Program

/-- Reads a file. -/
def readFile (name : String) : IO FileState := do
  try
    return .text (← IO.FS.readFile name)
  catch
    | .noFileOrDirectory .. => return .missing
    | _ => return .unreadable

/-- Reads files, each once. -/
def readFiles (names : List String) : IO (String → FileState) := do
  let contents ← names.mapM fun name => do return (name, ← readFile name)
  return fun name => (contents.lookup name).getD .missing

/-- Answers line after line until there is none or one that ends the loop. -/
partial def converse (settings : Settings) (state : Repl.State) : IO Unit := do
  let output ← IO.getStdout
  output.putStr Repl.prompt
  output.flush
  let line ← (← IO.getStdin).getLine
  if line.isEmpty then return
  match (Repl.respond? settings line).run state with
  | (none, _) => return
  | (some answer, state) =>
    output.putStr answer
    converse settings state

/-- Prints what is to be printed and ends with the right code. -/
def finish (outcome : Outcome) : IO UInt32 := do
  (← IO.getStdout).putStr outcome.stdout
  if let some message := outcome.error then (← IO.getStderr).putStrLn message
  return outcome.code.toUInt32

/-- Carries out what the arguments ask for. -/
def run (arguments : List String) : IO UInt32 := do
  match Invocation.read arguments with
  | .error stop => finish (CommandLine.stopOutcome stop)
  | .ok invocation =>
    let files ← readFiles invocation.files
    match CommandLine.loadSettings files invocation.config, invocation.command with
    | .ok settings, .repl => do
      (← IO.getStdout).putStr Repl.banner
      converse settings (Repl.State.initial settings)
      return 0
    | _, _ => finish (CommandLine.run arguments files "")

end DynamicConfig.Program

def main (arguments : List String) : IO UInt32 :=
  DynamicConfig.Program.run arguments
