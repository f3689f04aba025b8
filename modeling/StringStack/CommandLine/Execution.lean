import StringStack.Settings
import StringStack.Machine.Statistics
import StringStack.Machine.Run

/-! Carrying out a request: settings, program and input are made ready in this order, the first that
fails is reported, and otherwise the program runs. Standard output holds what was written, also
before a failure. Reading the arguments, wording the report of a failure and telling the time are
left to others. -/
namespace StringStack.CommandLine

structure Request where
  program : String
  input? : Option String
  maxStack? : Option Nat
  maxOps? : Option Nat
  engine? : Option Engine
  stats : Bool
  deriving DecidableEq, Repr

/-- How the arguments can end a command by themselves, as when they ask for help. -/
structure Exit where
  code : Nat
  stdout : List UInt8
  deriving DecidableEq, Repr

abbrev ArgumentParser := List String → Except Exit Request

inductive Entry where
  | missing
  | directory
  | file (contents : List UInt8)
  | unreadable (description : String)
  deriving DecidableEq

structure World where
  entry : String → Entry
  stdin : List UInt8
  environment : Environment

/-- Lines of a file. A directory can be opened for reading, but not read. -/
inductive InputFile where
  | lines (input : LineInput)
  | broken (cause : DeviceFault)

def InputFile.read : InputFile → Reading × InputFile
  | lines input => let (reading, rest) := input.read; (reading, lines rest)
  | broken cause => (.failed cause, broken cause)

instance : Source InputFile := ⟨InputFile.read⟩

inductive Failure where
  | settings (cause : SettingError)
  | unreadable (file : String) (cause : DeviceFault)
  | load (cause : LoadError)
  | unopened (file : String) (cause : DeviceFault)
  | run (cause : RunError)
  deriving DecidableEq, Repr

/-- The texts of a failure, from what was attempted down to its cause. -/
def Failure.chain : Failure → List String
  | settings cause => [cause.message]
  | unreadable file cause => ["Failed to read " ++ file, cause.message]
  | load cause => [cause.message]
  | unopened file cause => ["Failed to open " ++ file, cause.message]
  | run cause => [cause.message]

def Request.settings (r : Request) (environment : Environment) : Except SettingError Settings :=
  (Settings.ofEnvironment environment).map fun s =>
    { maxOps := r.maxOps?.getD s.maxOps, maxStack := r.maxStack?.getD s.maxStack,
      engine := r.engine?.getD s.engine }

def Entry.text : Entry → Except DeviceFault String
  | missing => .error .notFound
  | directory => .error .isDirectory
  | unreadable description => .error (.other description)
  | file contents =>
    match Text.ofBytes? contents with
    | some text => .ok text
    | none => .error .invalidUtf8

def Entry.input : Entry → Except DeviceFault InputFile
  | missing => .error .notFound
  | directory => .ok (.broken .isDirectory)
  | unreadable description => .error (.other description)
  | file contents => .ok (.lines ⟨contents⟩)

structure Setup where
  settings : Settings
  program : Program
  input : InputFile

def Request.prepare (r : Request) (world : World) : Except Failure Setup := do
  let settings ← (r.settings world.environment).mapError .settings
  let source ← (world.entry r.program).text.mapError (.unreadable r.program)
  let program ← (Program.loadText source).mapError .load
  let input ← match r.input? with
    | none => pure (.lines ⟨world.stdin⟩)
    | some file => (world.entry file).input.mapError (.unopened file)
  return ⟨settings, program, input⟩

structure Report where
  exitCode : Nat
  stdout : List UInt8
  failure? : Option Failure
  /-- How many instructions a finished run has executed and what was counted, if asked for. -/
  statistics? : Option (Nat × Statistics)
  deriving DecidableEq

def Exit.report (exit : Exit) : Report := ⟨exit.code, exit.stdout, none, none⟩

def Setup.run (s : Setup) : Outcome InputFile LineOutput Statistics :=
  StringStack.run s.settings s.program s.input ⟨none, #[]⟩ {}

/-- What was written before a failure is kept. -/
def Report.ofOutcome (stats : Bool) (o : Outcome InputFile LineOutput Statistics) : Report :=
  let written := o.final.memory.output.written.toList
  match o.failure? with
  | some cause => ⟨1, written, some (.run cause), none⟩
  | none =>
    ⟨0, written, none, if stats then some (o.final.completed, o.final.memory.observed) else none⟩

def Request.execute (r : Request) (world : World) : Report :=
  match r.prepare world with
  | .error cause => ⟨1, [], some cause, none⟩
  | .ok setup => .ofOutcome r.stats setup.run

def execute (parse : ArgumentParser) (arguments : List String) (world : World) : Report :=
  match parse arguments with
  | .error exit => exit.report
  | .ok request => request.execute world

structure Timing where
  elapsed : String
  /-- Instructions in a second, for so many instructions. -/
  rate : Nat → String

def countLine (entry : Keyword × Nat) : String :=
  "  " ++ String.ofList (entry.1.text.toList.rightpad 10 ' ') ++ " " ++ toString entry.2

def statisticsLines (timing : Timing) (executed : Nat) (s : Statistics) : List String :=
  ("Execution time: " ++ timing.elapsed) ::
    ("Instructions executed: " ++ toString executed ++ " (" ++ timing.rate executed ++ "/s)") ::
      ("Max stack depth: " ++ toString s.maxDepth ++ ", jumps taken: " ++ toString s.jumpsTaken) ::
        s.ranking.map countLine

/-- What the command itself prints on standard error. A logger may add its lines to these. -/
def Report.messages (describe : List String → List String) (timing : Timing) (report : Report) :
    List String :=
  match report.failure?, report.statistics? with
  | some cause, _ => describe cause.chain
  | none, some (executed, s) => statisticsLines timing executed s
  | none, none => []

def Request.readsStdin (r : Request) (world : World) : Bool :=
  match r.prepare world with
  | .ok setup => r.input?.isNone && setup.program.instructions.contains .read
  | .error _ => false

end StringStack.CommandLine
