import PatternAutomata.CommandLine

/-! The program: it prints the outcome of its arguments and exits with its code. -/

def main (args : List String) : IO UInt32 := do
  let outcome := PatternAutomata.CommandLine.run args
  IO.print outcome.stdout
  IO.eprint outcome.stderr
  return outcome.exitCode
