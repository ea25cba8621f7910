import BlockGraph.Arguments

/-!
The program.  It prints a report on a file.  The exit code is 1 if there is no report, and 2 if the
arguments are not those of a command.
-/

open BlockGraph

def readSource (path : String) : IO (Except String String) := do
  try
    return .ok (← IO.FS.readFile path)
  catch e =>
    return .error (toString e)

def main (args : List String) : IO UInt32 := do
  match Arguments.ofList? args with
  | none =>
    IO.eprintln Arguments.usage
    return 2
  | some arguments =>
    match ← readSource arguments.path with
    | .error message =>
      IO.eprintln message
      return 1
    | .ok source =>
      match arguments.command.run source with
      | .ok report =>
        IO.print report
        return 0
      | .error e =>
        IO.eprintln e.message
        return 1
