import ResourceQuery.CommandLine

/-!
# The program

Reads the standard input, runs a command and writes what it leaves behind.
-/

open ResourceQuery.CommandLine

/-- The standard input is read only when a query has to come from there. -/
def readsInput (arguments : List String) : Bool :=
  match Request.ofArguments arguments with
  | .run .parse given | .run .check given => given.operands.isEmpty
  | _ => false

def main (arguments : List String) : IO UInt32 := do
  let input ← if readsInput arguments then (← IO.getStdin).readToEnd else pure ""
  let ending := run arguments input
  IO.print ending.output
  IO.eprint ending.errors
  return ending.code
