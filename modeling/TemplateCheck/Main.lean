import TemplateCheck.Console

/-!
# The program

Reads the files that the arguments name, and writes the outcome.  Everything else is done by
`Command.respond` for a console that does not ask for the time.
-/

namespace TemplateCheck.Command

/-- the paths that are read for a job -/
def Job.paths : Job → List String
  | .check paths => paths
  | .tokens path _ => [path]
  | .keys path => [path]

/-- the paths that are read for an argument list -/
def Host.paths (host : Host) (args : List String) : List String :=
  match host.read args with
  | .error _ => []
  | .ok r => r.job.paths

/-- the variable of the environment that says how much is logged -/
def filterVariable : String := "RUST_LOG"

/-- what stands under a path on disk -/
def loadFile (path : String) : IO File := do
  try
    return .bytes (← IO.FS.readBinFile path).data.toList
  catch
    | .inappropriateType _ 21 _ => return .directory
    | .inappropriateType _ _ _ => return .missing
    | .noFileOrDirectory _ _ _ => return .missing
    | e => throw e

end TemplateCheck.Command

open TemplateCheck.Command in
/-- Answers the arguments on standard output and standard error, and gives the exit code. -/
def main (args : List String) : IO UInt32 := do
  let filter := (← IO.getEnv filterVariable).bind TemplateCheck.Console.Filter.ofName?
  let host := TemplateCheck.Console.host filter none
  let files ← (host.paths args).mapM fun path => return (path, ← loadFile path)
  let outcome := respond host (fun path => (files.lookup path).getD .missing) args
  (← IO.getStdout).putStr outcome.stdout
  (← IO.getStderr).putStr outcome.stderr
  return outcome.code.toUInt32
