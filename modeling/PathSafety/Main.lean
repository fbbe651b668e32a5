import PathSafety.Command.Run
import PathSafety.Command.Samples

/-!
# The command

Runs the command on the sample packages: what is said goes to the standard error, reports go to the standard
output and to the file that is asked for.
-/

/-- Carries out what a run comes to, and gives its exit code. -/
def PathSafety.Command.Run.perform (r : Run) : IO UInt32 := do
  for record in r.records do
    IO.eprintln record.line
  if let some (path, text) := r.file then
    IO.FS.writeFile path text
  if let some text := r.stdout then
    IO.print text
  return UInt32.ofNat r.exit

/-- The command. -/
def main (args : List String) : IO UInt32 :=
  match PathSafety.Command.run PathSafety.Command.Samples.catalog args with
  | .ok r => r.perform
  | .error _ => do
    IO.eprintln "the analysis came to no report"
    return 1
