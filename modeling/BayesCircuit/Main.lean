import BayesCircuit.CommandLine.Run

/-!
# Running the program

Interactions are carried out on the files of the machine.
-/

namespace BayesCircuit

/-- The result of an operation on files, or the reason why it failed. -/
def attempt {α : Type} (operation : IO α) : IO (Except String α) := do
  try
    return .ok (← operation)
  catch
    | .noFileOrDirectory .. => return .error Store.notFound
    | e => return .error (toString e)

/-- Carry out an interaction on the files of the machine. -/
def perform {α : Type} : Interaction α → IO α
  | .done a => return a
  | .read path next => do perform (next (← attempt (IO.FS.readFile path)))
  | .write path text next => do perform (next (← attempt (IO.FS.writeFile path text)))
  | .print text next => do
      IO.println text
      perform next
  | .complain text next => do
      IO.eprintln text
      perform next
  | .clock next => do perform (next (← IO.monoNanosNow))

end BayesCircuit

/-- Run the program with the arguments of the command line. -/
def main (arguments : List String) : IO UInt32 := do
  return UInt32.ofNat (← BayesCircuit.perform (BayesCircuit.CommandLine.run 1 arguments))
