import StringStack.CommandLine.Execution

namespace StringStack.CommandLine

def describe (details : String) (code : UInt32) : String :=
  details ++ " (os error " ++ toString code ++ ")"

def readEntry (file : String) : IO Entry := do
  try
    return .file (← IO.FS.readBinFile file).data.toList
  catch
    | .noFileOrDirectory .. => return .missing
    | .inappropriateType .. => return .directory
    | .permissionDenied _ code details => return .unreadable (describe details code)
    | e => return .unreadable (toString e)

def readVariable (key : String) : IO (String × Option (List UInt8)) := do
  return (key, (← IO.getEnv key).map Text.bytes)

def gather (r : Request) : IO World := do
  let values ← ["ROBOT_MAX_OPS", "ROBOT_MAX_STACK", "ROBOT_SEARCH"].mapM readVariable
  let program ← readEntry r.program
  let input ← match r.input? with
    | none => pure Entry.missing
    | some file => readEntry file
  let world : World := {
    entry := fun file => if file = r.program then program else input
    stdin := []
    environment := fun key => (values.lookup key).join }
  if r.readsStdin world then
    return { world with stdin := (← (← IO.getStdin).readBinToEnd).data.toList }
  else return world

/-- What the command leaves to others: reading the arguments, wording a failure from its texts, and
wording the time, given in nanoseconds. -/
structure Surface where
  parse : ArgumentParser
  describe : List String → List String
  timing : Nat → Timing

def answer (surface : Surface) (arguments : List String) : IO (Report × Timing) := do
  match surface.parse arguments with
  | .error exit => return (exit.report, surface.timing 0)
  | .ok request =>
    let world ← gather request
    let started ← IO.monoNanosNow
    let report ← IO.lazyPure fun _ => request.execute world
    let ended ← IO.monoNanosNow
    return (report, surface.timing (ended - started))

def command (surface : Surface) (arguments : List String) : IO UInt32 := do
  let (report, timing) ← answer surface arguments
  let stdout ← IO.getStdout
  stdout.write ⟨report.stdout.toArray⟩
  stdout.flush
  (report.messages surface.describe timing).forM IO.eprintln
  return report.exitCode.toUInt32

end StringStack.CommandLine
