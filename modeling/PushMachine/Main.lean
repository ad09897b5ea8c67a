import PushMachine.Command.Execute
/-!
# The command line
-/
namespace PushMachine
namespace Command

/-- The content of a file, if it can be read as text. -/
def readContent (path : String) : IO (Option String) :=
  try some <$> IO.FS.readFile path catch _ => pure none

def report (failure : Failure) : IO UInt32 := do
  match failure with
  | .usage e => (← IO.getStderr).putStrLn ("Error: " ++ e.message); return 2
  | .fault f => (← IO.getStderr).putStrLn ("Error: " ++ f.message); return 1

end Command
end PushMachine

open PushMachine Command in
def main (args : List String) : IO UInt32 := do
  match Invocation.ofArguments args with
  | .error e => report (.usage e)
  | .ok i    =>
    let contents ← i.request.paths.mapM fun path => do return (path, ← readContent path)
    match execute (fun path => (contents.find? (·.1 == path)).bind (·.2)) i with
    | .error failure => report failure
    | .ok result     =>
      (← IO.getStdout).putStr result.output
      (← IO.getStderr).putStr result.errors
      return UInt32.ofNat result.exit
