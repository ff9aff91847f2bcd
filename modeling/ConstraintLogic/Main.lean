import ConstraintLogic.Command
/-!
# The program
-/

namespace ConstraintLogic

def readContents? (path : String) : IO (Option String) := do
  try return some (← IO.FS.readFile path)
  catch _ => return none

def usage : String :=
  "usage: check PATH | compile [--json] [--] FORMULA | play PATH [--flip=EDGE ...]"

def runWords (words : List String) : IO UInt32 := do
  match Command.ofWords? words with
  | none =>
    IO.eprintln usage
    return 2
  | some command =>
    let contents ← match command.path? with
      | some path => readContents? path
      | none => pure none
    let outcome := command.run fun _ => contents
    IO.print outcome.text
    return if outcome.succeeded then 0 else 1

end ConstraintLogic

def main (words : List String) : IO UInt32 :=
  ConstraintLogic.runWords words
