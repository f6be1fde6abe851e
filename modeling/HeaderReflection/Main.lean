/-
  HeaderReflection.Main

  The program: a run over the files on the disk.
-/
import HeaderReflection.Disk

namespace HeaderReflection.CommandLine

/-- Does what the arguments ask for on the disk, prints what the run says and gives its exit code. -/
def runOnDisk (arguments : List Text) : IO UInt32 := do
  let request := parse arguments
  let before ← match request with
    | .run o => Disk.snapshot o
    | _ => pure ⟨∅, []⟩
  let (result, after) := run before arguments
  Disk.update before after
  for warning in result.warnings do
    IO.eprintln ("WARN " ++ warning.message)
  if request == .misuse then IO.eprint (String.ofList usage)
  IO.print (String.ofList result.output)
  IO.eprint (String.ofList result.errors)
  return result.exitCode.toUInt32

end HeaderReflection.CommandLine

/-- Runs the program; what the disk refuses ends it with exit code 1. -/
def main (arguments : List String) : IO UInt32 := do
  try HeaderReflection.CommandLine.runOnDisk (arguments.map String.toList)
  catch e =>
    IO.eprintln ("Error: " ++ toString e)
    return 1
