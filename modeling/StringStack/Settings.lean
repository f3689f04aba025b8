import StringStack.Text.Decimal
import StringStack.Text.Lines
import StringStack.Search.Engine

/-! Settings from environment variables. A variable that is not set, is not text or is blank leaves
its default; white space around any other value does not count. -/
namespace StringStack

/-- What a run is allowed and how it searches. By default both limits are the largest word. -/
structure Settings where
  maxOps : Nat := Text.Decimal.wordLimit - 1
  maxStack : Nat := Text.Decimal.wordLimit - 1
  engine : Engine := .boyerMoore
  deriving DecidableEq, Repr, Inhabited

abbrev Environment := String → Option (List UInt8)

inductive SettingFault where
  | number (cause : Text.Decimal.Fault)
  | engine (cause : Engine.UnknownName)
  deriving DecidableEq, Repr

def SettingFault.message : SettingFault → String
  | number cause => cause.message
  | engine cause => cause.message

structure SettingError where
  key : String
  value : String
  cause : SettingFault
  deriving DecidableEq, Repr

def SettingError.message (e : SettingError) : String :=
  "Failed to parse env var " ++ e.key ++ " with value `" ++ e.value ++ "`: " ++ e.cause.message

namespace Settings

def limit (text : String) : Except SettingFault Nat :=
  (Text.Decimal.word text.toList).mapError .number

def engineNamed (name : String) : Except SettingFault Engine :=
  (Engine.ofName name).mapError .engine

def setting {β : Type} (environment : Environment) (key : String)
    (parse : String → Except SettingFault β) (default : β) : Except SettingError β :=
  match (environment key).bind Text.ofBytes? with
  | none => .ok default
  | some value =>
    match Text.trim value.toList with
    | [] => .ok default
    | trimmed => (parse (String.ofList trimmed)).mapError fun cause => ⟨key, value, cause⟩

def ofEnvironment (environment : Environment) : Except SettingError Settings := do
  let defaults : Settings := {}
  let maxOps ← setting environment "ROBOT_MAX_OPS" limit defaults.maxOps
  let maxStack ← setting environment "ROBOT_MAX_STACK" limit defaults.maxStack
  let engine ← setting environment "ROBOT_SEARCH" engineNamed defaults.engine
  return { maxOps, maxStack, engine }

end Settings
end StringStack
