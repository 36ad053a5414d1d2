import Deduction.CommandLine

/-!
# The program

Reads the requests, prints the responses and the log, and ends with the exit
code of the run.
-/

namespace Deduction.CommandLine

/-- Why a file cannot be read. -/
def readFailure : IO.Error → String
  | .noFileOrDirectory _ code _ => "No such file or directory (os error " ++ toString code ++ ")"
  | e => toString e

/-- What the input of a command holds. -/
def readInput (command : Command) : IO (Except String String) := do
  match command with
  | .run ⟨some path, _, _, false⟩ =>
    try
      return .ok (← IO.FS.readFile path)
    catch e => return .error (readFailure e)
  | .run ⟨none, _, _, false⟩ => return .ok (← (← IO.getStdin).readToEnd)
  | _ => return .ok ""

end Deduction.CommandLine

/-- Run the program. -/
def main (args : List String) : IO UInt32 := do
  let command := Deduction.CommandLine.parse args
  let report := command.report (← Deduction.CommandLine.readInput command)
  if command = .unusable then
    Deduction.CommandLine.usage.forM IO.eprintln
  report.log.forM IO.eprintln
  report.output.forM IO.println
  return report.code
