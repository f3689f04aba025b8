import Mathlib.Logic.Relation
import StringStack.Proofs.Machine.Refinement

/-! The states that a run goes through. Everything that a step can do is said here once; a run then
takes steps as long as there is an instruction and the limit allows it, and ends at the state where
it cannot go on. -/
namespace StringStack

variable {ι ω τ : Type} [Source ι] [Sink ω] [Observer τ] {settings : Settings} {p : Program}

/-- How a step that goes well moves the index. -/
inductive Moves (p : Program) (ip : Nat) : Effect → Nat → Prop where
  | next : Moves p ip .next (ip + 1)
  | jump {target : Nat} : target ≤ p.size → Moves p ip (.jump target) target

theorem step_moved {i : Instruction} {s next : State ι ω τ} {effect : Effect}
    (went : step settings p i s = .moved effect next) :
    ∃ m, perform settings p.labels i s.memory = .ok effect m ∧
      next.memory = m.observe (.executed s.ip i (.ok effect)) ∧
      next.completed = s.completed + 1 ∧ Moves p s.ip effect next.ip := by
  unfold step at went
  split at went
  · cases went
  · next effect' m performed =>
    simp only at went
    split at went
    · cases went
      exact ⟨m, performed, rfl, rfl, .next⟩
    · split at went
      · next inside =>
        cases went
        exact ⟨m, performed, rfl, rfl, .jump inside⟩
      · cases went

inductive Breaks (settings : Settings) (p : Program) (i : Instruction) (m : Memory ι ω τ) :
    Fault → Prop where
  | fault {fault : Fault} {last : Memory ι ω τ} :
      perform settings p.labels i m = .error fault last → Breaks settings p i m fault
  | outOfRange {target : Nat} {last : Memory ι ω τ} :
      perform settings p.labels i m = .ok (.jump target) last → p.size < target →
        Breaks settings p i m (.instructionOutOfRange target)

theorem step_failed {i : Instruction} {s last : State ι ω τ} {error : RunError}
    (went : step settings p i s = .failed error last) :
    last.ip = s.ip ∧ last.completed = s.completed ∧
      ∃ fault, error = .instructionFailed i s.ip s.completed fault ∧
      Breaks settings p i s.memory fault := by
  unfold step at went
  split at went
  · next fault m performed =>
    cases went
    exact ⟨rfl, rfl, fault, rfl, .fault performed⟩
  · next effect' m performed =>
    simp only at went
    split at went
    · cases went
    · split at went
      · cases went
      · next outside =>
        cases went
        exact ⟨rfl, rfl, _, rfl, .outOfRange performed (Nat.not_le.1 outside)⟩

theorem step_of_error {i : Instruction} {s : State ι ω τ} {fault : Fault} {m : Memory ι ω τ}
    (performed : perform settings p.labels i s.memory = .error fault m) :
    step settings p i s = .failed (.instructionFailed i s.ip s.completed fault)
      { s with memory := m.observe (.executed s.ip i (.error fault)) } := by
  unfold step
  rw [performed]

theorem step_of_ok {i : Instruction} {s : State ι ω τ} {effect : Effect} {m : Memory ι ω τ}
    {ip : Nat} (performed : perform settings p.labels i s.memory = .ok effect m)
    (moves : Moves p s.ip effect ip) :
    step settings p i s = .moved effect
      ⟨m.observe (.executed s.ip i (.ok effect)), ip, s.completed + 1⟩ := by
  unfold step
  rw [performed]
  cases moves with
  | next => rfl
  | jump inside => exact if_pos inside

def Turns (settings : Settings) (p : Program) (s next : State ι ω τ) : Prop :=
  ∃ i effect, p.instructions[s.ip]? = some i ∧ s.completed < settings.maxOps ∧
    step settings p i s = .moved effect next

def Reaches (settings : Settings) (p : Program) : State ι ω τ → State ι ω τ → Prop :=
  Relation.ReflTransGen (Turns settings p)

/-- How a run ends at a state from which it takes no turn. -/
inductive Ends (settings : Settings) (p : Program) (s : State ι ω τ) : Outcome ι ω τ → Prop where
  | finished : p.instructions[s.ip]? = none → Ends settings p s ⟨none, s⟩
  | tooLong {i : Instruction} : p.instructions[s.ip]? = some i → settings.maxOps ≤ s.completed →
      Ends settings p s ⟨some (.tooLong s.completed), s⟩
  | failed {i : Instruction} {error : RunError} {last : State ι ω τ} :
      p.instructions[s.ip]? = some i → s.completed < settings.maxOps →
        step settings p i s = .failed error last → Ends settings p s ⟨some error, last⟩

section Endings

variable {s : State ι ω τ} {o : Outcome ι ω τ}

theorem Ends.of_finished (ends : Ends settings p s o) (finished : o.failure? = none) :
    o = ⟨none, s⟩ ∧ p.instructions[s.ip]? = none := by
  cases ends with
  | finished beyond => exact ⟨rfl, beyond⟩
  | tooLong _ _ => cases finished
  | failed _ _ _ => cases finished

theorem Ends.of_tooLong {n : Nat} (ends : Ends settings p s o)
    (failed : o.failure? = some (.tooLong n)) :
    o = ⟨some (.tooLong n), s⟩ ∧ settings.maxOps ≤ n ∧ n = s.completed := by
  cases ends with
  | finished _ => cases failed
  | tooLong _ spent =>
    cases failed
    exact ⟨rfl, spent, rfl⟩
  | failed _ _ went =>
    obtain ⟨-, -, _, rfl, -⟩ := step_failed went
    cases failed

theorem Ends.of_instructionFailed {i : Instruction} {index n : Nat} {fault : Fault}
    (ends : Ends settings p s o) (failed : o.failure? = some (.instructionFailed i index n fault)) :
    index = s.ip ∧ n = s.completed ∧ p.instructions[s.ip]? = some i ∧
    s.completed < settings.maxOps ∧
      Breaks settings p i s.memory fault ∧
      step settings p i s = .failed (.instructionFailed i s.ip s.completed fault) o.final ∧
      o = ⟨some (.instructionFailed i s.ip s.completed fault), o.final⟩ := by
  cases ends with
  | finished _ => cases failed
  | tooLong _ _ => cases failed
  | failed fetched allowed went =>
    obtain ⟨-, -, _, rfl, breaks⟩ := step_failed went
    cases failed
    exact ⟨rfl, rfl, fetched, allowed, breaks, went, rfl⟩

end Endings

theorem runFor_ends {budget : Nat} {s : State ι ω τ}
    (left : settings.maxOps - s.completed = budget) :
    ∃ last, Reaches settings p s last ∧ Ends settings p last (runFor settings p budget s) := by
  induction budget generalizing s with
  | zero =>
    refine ⟨s, .refl, ?_⟩
    unfold runFor
    cases fetched : p.instructions[s.ip]? with
    | none => exact .finished fetched
    | some i => exact .tooLong fetched (Nat.sub_eq_zero_iff_le.1 left)
  | succ budget ih =>
    unfold runFor
    cases fetched : p.instructions[s.ip]? with
    | none => exact ⟨s, .refl, .finished fetched⟩
    | some i =>
      have allowed : s.completed < settings.maxOps := by omega
      simp only
      cases went : step settings p i s with
      | failed error last => exact ⟨s, .refl, .failed fetched allowed went⟩
      | moved effect next =>
        obtain ⟨m, -, -, counted, -⟩ := step_moved went
        obtain ⟨last, reached, ended⟩ := ih (s := next) (by omega)
        exact ⟨last, .head ⟨i, effect, fetched, allowed, went⟩ reached, ended⟩

theorem runFrom_ends (settings : Settings) (p : Program) (s : State ι ω τ) :
    ∃ last, Reaches settings p s last ∧ Ends settings p last (runFrom settings p s) :=
  runFor_ends rfl

theorem Reaches.keeps {motive : State ι ω τ → Prop} {s last : State ι ω τ}
    (reached : Reaches settings p s last) (start : motive s)
    (turn : ∀ s next, Turns settings p s next → motive s → motive next) : motive last := by
  induction reached with
  | refl => exact start
  | tail _ turned ih => exact turn _ _ turned ih

theorem Turns.stack_le {s next : State ι ω τ} (turned : Turns settings p s next)
    (fits : s.memory.onLists.stack.length ≤ settings.maxStack) :
    next.memory.onLists.stack.length ≤ settings.maxStack := by
  obtain ⟨i, effect, -, -, went⟩ := turned
  have kept := ListMachine.step_length_le settings p i (s := s.onLists) fits
  rw [← step_onLists settings p i fits, went] at kept
  exact kept

theorem Reaches.stack_le {s last : State ι ω τ} (reached : Reaches settings p s last)
    (fits : s.memory.onLists.stack.length ≤ settings.maxStack) :
    last.memory.onLists.stack.length ≤ settings.maxStack :=
  reached.keeps fits fun _ _ turned => turned.stack_le

end StringStack
