import StringStack.Program.Loading
import StringStack.Machine.Step

namespace StringStack

structure Outcome (ι ω τ : Type) where
  failure? : Option RunError
  final : State ι ω τ

variable {ι ω τ : Type}

def State.start (input : ι) (output : ω) (observed : τ) : State ι ω τ :=
  ⟨⟨.empty, input, output, observed⟩, 0, 0⟩

variable [Source ι] [Sink ω] [Observer τ]

/-- Runs at most `budget` more instructions. -/
def runFor (settings : Settings) (p : Program) (budget : Nat) (s : State ι ω τ) : Outcome ι ω τ :=
  match p.instructions[s.ip]? with
  | none => ⟨none, s⟩
  | some i =>
    match budget with
    | 0 => ⟨some (.tooLong s.completed), s⟩
    | budget + 1 =>
      match step settings p i s with
      | .moved _ next => runFor settings p budget next
      | .failed error last => ⟨some error, last⟩

def runFrom (settings : Settings) (p : Program) (s : State ι ω τ) : Outcome ι ω τ :=
  runFor settings p (settings.maxOps - s.completed) s

def run (settings : Settings) (p : Program) (input : ι) (output : ω) (observed : τ) :
    Outcome ι ω τ :=
  runFrom settings p (.start input output observed)

inductive EvaluationError where
  | load (cause : LoadError)
  | run (cause : RunError)
  deriving DecidableEq, Repr

def evaluate (lines input : List String) : Except EvaluationError (List String) :=
  match Program.load lines with
  | .error cause => .error (.load cause)
  | .ok p =>
    let outcome := run {} p input (⟨#[]⟩ : Collected) ()
    match outcome.failure? with
    | some cause => .error (.run cause)
    | none => .ok outcome.final.memory.output.values.toList

end StringStack
