import PatternAutomata.CommandLine

/-!
# The program

Hands the arguments over and prints what comes back.
-/

/-- Print the outcome of the call and exit with its code. -/
def main (args : List String) : IO UInt32 := do
  let outcome := PatternAutomata.CommandLine.run args
  (← IO.getStdout).putStr outcome.out
  (← IO.getStderr).putStr outcome.err
  return UInt32.ofNat outcome.code
