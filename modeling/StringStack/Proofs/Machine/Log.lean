import StringStack.Machine.Log
import StringStack.Proofs.Machine.Reaching

/-! The log of a run follows the run: the entries of each executed instruction, made from the state
that the run had reached before it, and then those of the ending. -/
namespace StringStack.Log

variable {ι ω τ : Type} [Source ι] [Sink ω] [Observer τ]

def ofTurn (settings : Settings) (p : Program) (s : State ι ω τ) : List LogEntry :=
  match p.instructions[s.ip]? with
  | none => []
  | some i =>
    match step settings p i s with
    | .moved (.jump target) _ => [before i s, branching p s.ip target]
    | _ => [before i s]

def ofEnd (o : Outcome ι ω τ) : List LogEntry :=
  match o.failure? with
  | none => [finished o.final]
  | some _ => []

def executed (o : Outcome ι ω τ) : Nat :=
  match o.failure? with
  | some (.instructionFailed _ _ completed _) => completed + 1
  | _ => o.final.completed

variable {settings : Settings} {p : Program}

/-- The entries of the first `n` instructions from `s` on. -/
def ofTurns (settings : Settings) (p : Program) (s : State ι ω τ) (n : Nat) : List LogEntry :=
  (List.range n).flatMap fun k => ofTurn settings p (runFor settings p k s).final

theorem runFor_zero_final (s : State ι ω τ) : (runFor settings p 0 s).final = s := by
  unfold runFor
  split <;> rfl

theorem runFor_succ {s next : State ι ω τ} {i : Instruction} {effect : Effect}
    (fetched : p.instructions[s.ip]? = some i) (went : step settings p i s = .moved effect next)
    (budget : Nat) : runFor settings p (budget + 1) s = runFor settings p budget next := by
  rw [runFor, fetched]
  simp only [went]

theorem ofTurns_succ {s next : State ι ω τ} {i : Instruction} {effect : Effect}
    (fetched : p.instructions[s.ip]? = some i) (went : step settings p i s = .moved effect next)
    (n : Nat) :
    ofTurns settings p s (n + 1) = ofTurn settings p s ++ ofTurns settings p next n := by
  rw [ofTurns, List.range_succ_eq_map, List.flatMap_cons, List.flatMap_map, runFor_zero_final]
  simp only [Nat.succ_eq_add_one, runFor_succ fetched went]
  rfl

theorem ofSteps_succ {s next : State ι ω τ} {i : Instruction} {effect : Effect}
    (fetched : p.instructions[s.ip]? = some i) (went : step settings p i s = .moved effect next)
    (entries : Array LogEntry) (budget : Nat) :
    ofSteps settings p entries (budget + 1) s =
      ofSteps settings p (entries ++ (ofTurn settings p s).toArray) budget next := by
  rw [ofSteps, fetched]
  cases effect with
  | next => simp [ofTurn, fetched, went]
  | jump target =>
    simp only [ofTurn, fetched, went, Array.push_eq_append, Array.append_assoc]
    rfl

theorem toList_ofSteps (settings : Settings) (p : Program) (entries : Array LogEntry)
    (budget : Nat) (s : State ι ω τ) :
    ∃ n, executed (runFor settings p budget s) = s.completed + n ∧
      (ofSteps settings p entries budget s).toList =
        entries.toList ++ ofTurns settings p s n ++ ofEnd (runFor settings p budget s) := by
  induction budget generalizing entries s with
  | zero =>
    refine ⟨0, ?_⟩
    unfold ofSteps runFor
    cases p.instructions[s.ip]? with
    | none => exact ⟨rfl, by simp [ofTurns, ofEnd]⟩
    | some i => exact ⟨rfl, by simp [ofTurns, ofEnd]⟩
  | succ budget ih =>
    cases fetched : p.instructions[s.ip]? with
    | none =>
      refine ⟨0, ?_⟩
      unfold ofSteps runFor
      rw [fetched]
      exact ⟨rfl, by simp [ofTurns, ofEnd]⟩
    | some i =>
      cases went : step settings p i s with
      | moved effect next =>
        obtain ⟨-, -, -, counted, -⟩ := step_moved went
        obtain ⟨n, total, listed⟩ := ih (entries ++ (ofTurn settings p s).toArray) next
        rw [ofSteps_succ fetched went, runFor_succ fetched went]
        refine ⟨n + 1, by omega, ?_⟩
        rw [listed, ofTurns_succ fetched went, Array.toList_append, ← List.append_assoc]
      | failed error last =>
        obtain ⟨-, -, fault, rfl, -⟩ := step_failed went
        refine ⟨1, ?_⟩
        rw [ofSteps, runFor, fetched]
        simp only [went]
        have first : ofTurns settings p s 1 = [before i s] := by
          simp [ofTurns, runFor_zero_final, ofTurn, fetched, went]
        exact ⟨rfl, by simp [first, ofEnd]⟩

/-- For every instruction that a run executes there are the entries made from the state that the
run has reached when it may execute no more than those before; a run that finishes adds its own. -/
theorem toList_ofRun (settings : Settings) (p : Program) (input : ι) (output : ω) (observed : τ) :
    (ofRun settings p input output observed).toList =
      ofTurns settings p (.start input output observed)
          (executed (run settings p input output observed)) ++
        ofEnd (run settings p input output observed) := by
  have start : (State.start input output observed).completed = 0 := rfl
  obtain ⟨n, total, listed⟩ :=
    toList_ofSteps settings p #[] settings.maxOps (.start input output observed)
  rw [start, Nat.zero_add] at total
  have whole : run settings p input output observed =
      runFor settings p settings.maxOps (.start input output observed) := by
    rw [run, runFrom, start, Nat.sub_zero]
  rw [ofRun, listed, whole, total]
  rfl

end StringStack.Log
