import ImpC.CommandLine.Run

/-!
The command line on the files and standard streams of the system.
-/

namespace ImpC.CommandLine

def Failure.ofError : IO.Error → Failure
  | .noFileOrDirectory .. => .notFound
  | .inappropriateType _ code _ => if code = 20 then .notDirectory else .isDirectory
  | e => .other e.toString.toList

/-- The result of an action, with its error as a failure. -/
def attempt {α : Type} (action : IO (Except Failure α)) : IO (Except Failure α) := do
  match ← action.toBaseIO with
  | .ok result => return result
  | .error e => return .error (.ofError e)

/-- The files of the system. -/
def disk : Files IO where
  standardInput := attempt do return decode (← (← IO.getStdin).readBinToEnd)
  read := fun path => attempt do return decode (← IO.FS.readBinFile (String.ofList path))
  write := fun path text => attempt do
    IO.FS.writeFile (String.ofList path) (String.ofList text)
    return .ok ()

end ImpC.CommandLine

open ImpC.CommandLine in
/-- Runs the command line. Arguments that are not in order end it with the code 2. -/
def main (arguments : List String) : IO UInt32 := do
  match ← run disk (arguments.map String.toList) with
  | none =>
    IO.eprintln "error: the arguments are not in order; see --help"
    return 2
  | some outcome =>
    IO.print (String.ofList outcome.stdout)
    IO.eprint (String.ofList outcome.stderr)
    return outcome.code.toUInt32
