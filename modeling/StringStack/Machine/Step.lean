import StringStack.Text.Bytes
import StringStack.Program.Basic
import StringStack.Machine.Memory

namespace StringStack

variable {ι ω τ : Type}

def jumpTo (labels : LabelTable) (name : String) : Action ι ω τ Effect :=
  match labels.get? name with
  | some target => pure (.jump target)
  | none => throw (.undefinedLabel name)

variable [Source ι] [Sink ω] [Observer τ]

open Memory in
def perform (settings : Settings) (labels : LabelTable) : Instruction → Action ι ω τ Effect
  | .push v => do
    push settings.maxStack v
    return .next
  | .pop => do
    let _ ← pop
    return .next
  | .write => do
    write (← peek 0)
    return .next
  | .read => do
    push settings.maxStack (← read)
    return .next
  | .swap a b => do
    swap a b
    return .next
  | .copy n => do
    push settings.maxStack (← peek n)
    return .next
  | .mark => return .next
  | .jump target => return .jump target
  | .jumpDynamic => do jumpTo labels (← pop)
  | .concat => do
    let head ← pop
    let below ← pop
    push settings.maxStack (head ++ below)
    return .next
  | .replaceOne => do
    let text ← pop
    let pattern ← pop
    let replacement ← pop
    let otherwise ← pop
    match settings.engine.find pattern text with
    | some offset =>
      push settings.maxStack (Text.splice text offset pattern replacement)
      return .next
    | none => jumpTo labels otherwise

/-- A run between two instructions: the index of the next one and how many have been completed. -/
structure State (ι ω τ : Type) where
  memory : Memory ι ω τ
  ip : Nat
  completed : Nat

inductive Progress (ι ω τ : Type) where
  | moved (effect : Effect) (s : State ι ω τ)
  | failed (error : RunError) (s : State ι ω τ)

/-- Runs one instruction. The observer hears of a jump before its target is checked. -/
def step (settings : Settings) (p : Program) (i : Instruction) (s : State ι ω τ) : Progress ι ω τ :=
  match perform settings p.labels i s.memory with
  | .error fault m =>
    .failed (.instructionFailed i s.ip s.completed fault)
      { s with memory := m.observe (.executed s.ip i (.error fault)) }
  | .ok effect m =>
    let memory := m.observe (.executed s.ip i (.ok effect))
    match effect with
    | .next => .moved .next ⟨memory, s.ip + 1, s.completed + 1⟩
    | .jump target =>
      if target ≤ p.size then .moved (.jump target) ⟨memory, target, s.completed + 1⟩
      else .failed (.instructionFailed i s.ip s.completed (.instructionOutOfRange target))
        { s with memory }

end StringStack
