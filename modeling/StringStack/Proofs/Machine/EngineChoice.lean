import StringStack.Machine.Run
import StringStack.Machine.Statistics
import StringStack.Proofs.Search.Engine

namespace StringStack

variable {ι ω τ : Type} [Source ι] [Sink ω] [Observer τ]

theorem perform_engine (settings : Settings) (a b : Engine) (labels : LabelTable) (i : Instruction)
    (m : Memory ι ω τ) : perform { settings with engine := a } labels i m =
      perform { settings with engine := b } labels i m := by
  cases i with
  | replaceOne => simp only [perform, Engine.find_eq a b]
  | _ => rfl

theorem step_engine (settings : Settings) (a b : Engine) (p : Program) (i : Instruction)
    (s : State ι ω τ) : step { settings with engine := a } p i s =
      step { settings with engine := b } p i s := by
  simp only [step, perform_engine settings a b]

theorem runFor_engine (settings : Settings) (a b : Engine) (p : Program) (budget : Nat)
    (s : State ι ω τ) : runFor { settings with engine := a } p budget s =
      runFor { settings with engine := b } p budget s := by
  -- Each step hands equal states on.
  induction budget generalizing s with
  | zero => simp only [runFor]
  | succ budget ih =>
    rw [runFor, runFor]
    cases p.instructions[s.ip]? with
    | none => rfl
    | some i =>
      simp only [step_engine settings a b]
      cases step { settings with engine := b } p i s with
      | moved effect next => exact ih next
      | failed error last => rfl

/-- Runs that differ in the engine alone have the same outcome: how they end, the stack, the input
that is left, the counter and the index, what any sink has taken and what any observer makes of the
events, one that counts them or keeps them all included. -/
theorem run_engine_unobservable (settings : Settings) (a b : Engine) (p : Program) (input : ι)
    (output : ω) (observed : τ) :
    run { settings with engine := a } p input output observed =
      run { settings with engine := b } p input output observed :=
  runFor_engine settings a b p _ _

end StringStack
