import StringStack.Settings
import StringStack.Machine.Stack
import StringStack.Machine.Device
import StringStack.Machine.Event

/-! What instructions act on, and the actions they are made of. An action that fails leaves behind
what it has done until then. -/
namespace StringStack

structure Memory (ι ω τ : Type) where
  stack : Stack
  input : ι
  output : ω
  observed : τ

abbrev Action (ι ω τ : Type) := EStateM Fault (Memory ι ω τ)

namespace Memory

variable {ι ω τ : Type}

def observe [Observer τ] (m : Memory ι ω τ) (e : Event) : Memory ι ω τ :=
  { m with observed := Observer.observe m.observed e }

def push [Observer τ] (maxStack : Nat) (v : String) : Action ι ω τ Unit := fun m =>
  if m.stack.size < maxStack then
    .ok () { m with stack := m.stack.push v, observed := Observer.observe m.observed (.pushed v) }
  else .error .pushFailed m

def pop [Observer τ] : Action ι ω τ String := fun m =>
  if filled : 0 < m.stack.size then
    .ok (m.stack.get 0 filled)
      { m with stack := m.stack.pop, observed := Observer.observe m.observed .popped }
  else .error (.stackUnderflow 0 0) m

def peek (offset : Nat) : Action ι ω τ String := fun m =>
  if inside : offset < m.stack.size then .ok (m.stack.get offset inside) m
  else .error (.stackUnderflow offset m.stack.size) m

def swap (a b : Nat) : Action ι ω τ Unit := fun m =>
  if inside : max a b < m.stack.size then
    .ok () { m with stack := m.stack.swap a b (by omega) (by omega) }
  else .error (.stackUnderflow (max a b) m.stack.size) m

def read [Source ι] : Action ι ω τ String := fun m =>
  match Source.read m.input with
  | (.value v, input) => .ok v { m with input }
  | (.ended, input) => .error .inputExhausted { m with input }
  | (.failed cause, input) => .error (.inputFailed cause) { m with input }

def write [Sink ω] (v : String) : Action ι ω τ Unit := fun m =>
  match Sink.write m.output v with
  | (none, output) => .ok () { m with output }
  | (some cause, output) => .error (.outputFailed cause) { m with output }

end Memory
end StringStack
