import StringStack.Machine.Fault

namespace StringStack

inductive Effect where
  | next
  | jump (target : Nat)
  deriving DecidableEq, Repr

inductive Event where
  | pushed (v : String)
  | popped
  | executed (index : Nat) (instruction : Instruction) (result : Except Fault Effect)

class Observer (τ : Type) where
  observe : τ → Event → τ

instance : Observer Unit := ⟨fun _ _ => ()⟩

instance {σ τ : Type} [Observer σ] [Observer τ] : Observer (σ × τ) where
  observe both e := (Observer.observe both.1 e, Observer.observe both.2 e)

structure History where
  events : Array Event

instance : Observer History := ⟨fun h e => ⟨h.events.push e⟩⟩

end StringStack
