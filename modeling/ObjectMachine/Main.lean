import ObjectMachine.CommandLine.Run

/-!
# The command line

Prints what a command line comes to.
-/

/-- More instructions than a run can execute. -/
def instructionLimit : Nat := 4611686018427387904

def main (args : List String) : IO UInt32 := do
  let result := ObjectMachine.CommandLine.run instructionLimit args
  IO.print result.output
  IO.eprint result.errors
  return result.code.toUInt32
