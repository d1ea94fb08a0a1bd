import Lexing.CommandLine.Run

/-!
# The program

Looks up the files and variables that the command line asks for, runs the
command on them, and prints what it comes to.
-/

namespace Lexing.CommandLine

/-- Read a file as a text. -/
def readFile (path : String) : IO (Except ReadFailure String) := do
  try
    let bytes ← IO.FS.readBinFile path
    return match String.fromUTF8? bytes with
      | some text => .ok text
      | none => .error .notText
  catch
    | .noFileOrDirectory .. => return .error .missing
    | .inappropriateType .. => return .error .directory
    | e => return .error (.other (toString e))

/-- Whether a file can be found at all. -/
def fileExists (path : String) : IO Bool := do
  match ← readFile path with
  | .error .missing => return false
  | _ => return true

/-- The variables of the environment that the program looks at. -/
def variablesAsked : List String := globalOptions.map fun spec => variableOf spec.name

/-- Collect what the command line asks for. -/
def surroundings (args : List String) : IO Surroundings := do
  let asked ← variablesAsked.mapM fun name => return (name, ← IO.getEnv name)
  let environment (name : String) := (asked.lookup name).join
  let files ← (filesAsked environment args).mapM fun path =>
    return (path, ← fileExists path, ← readFile path)
  let entropy ← IO.rand 0 0x4000000000000000
  return {
    environment := environment
    fileExists := fun path => files.any fun (name, found, _) => name == path && found
    read := fun path => ((files.lookup path).map (·.2)).getD (.error .missing)
    entropy := entropy.toUInt64 }

end Lexing.CommandLine

/-- Run the program on its arguments. -/
def main (args : List String) : IO UInt32 := do
  let report := Lexing.CommandLine.run (← Lexing.CommandLine.surroundings args) args
  IO.print report.stdout
  IO.eprint report.stderr
  return report.code.toUInt32
