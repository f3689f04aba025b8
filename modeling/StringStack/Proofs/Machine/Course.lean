import StringStack.Proofs.Machine.Reaching

/-! What a run has executed. Its course is the list of the instructions in the order in which they
were executed, each with what it came to, a last one that failed included. A run has one course
only, any part of it from the start on is the course of the run up to there, and from wherever a
course leads the run goes on as before. -/
namespace StringStack

/-- One instruction that was executed, its place, and what it came to. -/
structure Visit where
  index : Nat
  instruction : Instruction
  result : Except Fault Effect

def Visit.jumps (v : Visit) : Bool :=
  match v.result with
  | .ok (.jump _) => true
  | _ => false

variable {ι ω τ : Type}

def Progress.state : Progress ι ω τ → State ι ω τ
  | .moved _ s => s
  | .failed _ s => s

variable [Source ι] [Sink ω] [Observer τ]

def visit (settings : Settings) (p : Program) (i : Instruction) (s : State ι ω τ) : Visit :=
  ⟨s.ip, i, (reply (perform settings p.labels i s.memory)).1⟩

theorem visit_result (settings : Settings) (p : Program) (i : Instruction) {s : State ι ω τ}
    (fits : s.memory.onLists.stack.length ≤ settings.maxStack) :
    (visit settings p i s).result =
      (ListMachine.act settings.maxStack p.labels i s.memory.onLists).1 :=
  congrArg Prod.fst (perform_onLists settings p.labels i fits)

theorem step_state_onLists (settings : Settings) (p : Program) (i : Instruction) {s : State ι ω τ}
    (fits : s.memory.onLists.stack.length ≤ settings.maxStack) :
    (step settings p i s).state.memory.onLists =
      (ListMachine.act settings.maxStack p.labels i s.memory.onLists).2.hear
        [.executed s.ip i (visit settings p i s).result] := by
  rw [visit, ← perform_onLists settings p.labels i fits]
  unfold step
  cases perform settings p.labels i s.memory with
  | error fault m => rfl
  | ok effect m =>
    cases effect with
    | next => rfl
    | jump target =>
      by_cases inside : target ≤ p.size
      · simp only [if_pos inside]
        rfl
      · simp only [if_neg inside]
        rfl

theorem step_stack_le (settings : Settings) (p : Program) (i : Instruction) {s : State ι ω τ}
    (fits : s.memory.onLists.stack.length ≤ settings.maxStack) :
    (step settings p i s).state.memory.onLists.stack.length ≤ settings.maxStack := by
  rw [step_state_onLists settings p i fits]
  exact ListMachine.act_length_le p.labels i fits

/-- The run from `start` has completed `visits`, and is now in this state. -/
inductive Completes (settings : Settings) (p : Program) (start : State ι ω τ) :
    List Visit → State ι ω τ → Prop where
  | start : Completes settings p start [] start
  | next {visits : List Visit} {s next : State ι ω τ} {i : Instruction} {effect : Effect} :
      Completes settings p start visits s → p.instructions[s.ip]? = some i →
        s.completed < settings.maxOps →
        step settings p i s = .moved effect next →
          Completes settings p start (visits ++ [visit settings p i s]) next

/-- The same, or the last of the instructions has failed and has left the run in this state. -/
inductive Executes (settings : Settings) (p : Program) (start : State ι ω τ) :
    List Visit → State ι ω τ → Prop where
  | completed {visits : List Visit} {s : State ι ω τ} :
      Completes settings p start visits s → Executes settings p start visits s
  | failed {visits : List Visit} {s last : State ι ω τ} {i : Instruction} {error : RunError} :
      Completes settings p start visits s → p.instructions[s.ip]? = some i →
        s.completed < settings.maxOps →
        step settings p i s = .failed error last →
          Executes settings p start (visits ++ [visit settings p i s]) last

variable {settings : Settings} {p : Program} {start s t : State ι ω τ} {visits others : List Visit}

theorem Completes.reaches (completes : Completes settings p start visits s) :
    Reaches settings p start s := by
  induction completes with
  | start => exact .refl
  | next _ fetched allowed went ih => exact .tail ih ⟨_, _, fetched, allowed, went⟩

theorem Reaches.completes (reached : Reaches settings p start s) :
    ∃ visits, Completes settings p start visits s := by
  induction reached with
  | refl => exact ⟨[], .start⟩
  | tail _ turned ih =>
    obtain ⟨visits, completes⟩ := ih
    obtain ⟨i, effect, fetched, allowed, went⟩ := turned
    exact ⟨_, completes.next fetched allowed went⟩

theorem Completes.completed_eq (completes : Completes settings p start visits s) :
    s.completed = start.completed + visits.length := by
  induction completes with
  | start => rfl
  | next _ _ _ went ih =>
    obtain ⟨-, -, -, counted, -⟩ := step_moved went
    rw [counted, ih, List.length_append, List.length_singleton, Nat.add_assoc]

theorem Completes.length_le (completes : Completes settings p start visits s)
    (fresh : start.completed ≤ settings.maxOps) :
    start.completed + visits.length ≤ settings.maxOps := by
  cases completes with
  | start => exact fresh
  | next before _ allowed _ =>
    have counted := before.completed_eq
    rw [List.length_append, List.length_singleton]
    omega

theorem Completes.executes_step {i : Instruction} (completes : Completes settings p start visits s)
    (fetched : p.instructions[s.ip]? = some i) (allowed : s.completed < settings.maxOps) :
    Executes settings p start (visits ++ [visit settings p i s]) (step settings p i s).state := by
  cases went : step settings p i s with
  | moved effect next => exact .completed (completes.next fetched allowed went)
  | failed error last => exact .failed completes fetched allowed went

theorem Executes.keeps {motive : List Visit → State ι ω τ → Prop}
    (executes : Executes settings p start visits t) (begins : motive [] start)
    (turn : ∀ visits s i, Completes settings p start visits s → motive visits s →
      p.instructions[s.ip]? = some i → s.completed < settings.maxOps →
      motive (visits ++ [visit settings p i s]) (step settings p i s).state) :
    motive visits t := by
  have completed {visits s} (completes : Completes settings p start visits s) :
      motive visits s := by
    induction completes with
    | start => exact begins
    | next before fetched allowed went ih =>
      have kept := turn _ _ _ before ih fetched allowed
      rwa [went] at kept
  cases executes with
  | completed completes => exact completed completes
  | failed before fetched allowed went =>
    have kept := turn _ _ _ before (completed before) fetched allowed
    rwa [went] at kept

theorem Executes.stack_le (executes : Executes settings p start visits t)
    (fits : start.memory.onLists.stack.length ≤ settings.maxStack) :
    t.memory.onLists.stack.length ≤ settings.maxStack := by
  apply executes.keeps (motive := fun _ s => s.memory.onLists.stack.length ≤ settings.maxStack) fits
  intro visits s i _ kept _ _
  exact step_stack_le settings p i kept

theorem Completes.unique (completes : Completes settings p start visits s)
    (again : Completes settings p start others t) (same : visits.length = others.length) :
    visits = others ∧ s = t := by
  induction completes generalizing others t with
  | start =>
    cases again with
    | start => exact ⟨rfl, rfl⟩
    | next => simp at same
  | next _ fetched _ went ih =>
    cases again with
    | start => simp at same
    | next before fetched' _ went' =>
      obtain ⟨rfl, rfl⟩ := ih before (by simpa using same)
      cases fetched.symm.trans fetched'
      cases went.symm.trans went'
      exact ⟨rfl, rfl⟩

theorem Completes.cut {i : Instruction} (completes : Completes settings p start visits s)
    (fetched : p.instructions[s.ip]? = some i) (allowed : s.completed < settings.maxOps) {k : Nat}
    (inside : k ≤ visits.length) :
    ∃ mid j, Completes settings p start (visits.take k) mid ∧ p.instructions[mid.ip]? = some j ∧
      mid.completed < settings.maxOps := by
  induction completes generalizing i with
  | start =>
    rw [List.take_nil]
    exact ⟨_, _, .start, fetched, allowed⟩
  | next before fetched' allowed' went ih =>
    rcases Nat.le_iff_lt_or_eq.1 inside with earlier | rfl
    · rw [List.length_append, List.length_singleton, Nat.lt_succ_iff] at earlier
      rw [List.take_append_of_le_length earlier]
      exact ih fetched' allowed' earlier
    · rw [List.take_length]
      exact ⟨_, _, before.next fetched' allowed' went, fetched, allowed⟩

theorem Executes.eq_start_or_step (executes : Executes settings p start visits s) :
    (visits = [] ∧ s = start) ∨ ∃ before mid i, Completes settings p start before mid ∧
      p.instructions[mid.ip]? = some i ∧ mid.completed < settings.maxOps ∧
      visits = before ++ [visit settings p i mid] ∧ s = (step settings p i mid).state := by
  cases executes with
  | completed completes =>
    cases completes with
    | start => exact .inl ⟨rfl, rfl⟩
    | next before fetched allowed went =>
      exact .inr ⟨_, _, _, before, fetched, allowed, rfl, by rw [went]; rfl⟩
  | failed before fetched allowed went =>
    exact .inr ⟨_, _, _, before, fetched, allowed, rfl, by rw [went]; rfl⟩

theorem Executes.cut (executes : Executes settings p start visits s) {k : Nat}
    (inside : k < visits.length) :
    ∃ mid j, Completes settings p start (visits.take k) mid ∧ p.instructions[mid.ip]? = some j ∧
      mid.completed < settings.maxOps := by
  obtain ⟨rfl, -⟩ | ⟨before, mid, i, completes, fetched, allowed, rfl, -⟩ :=
    executes.eq_start_or_step
  · exact absurd inside (Nat.not_lt_zero k)
  · rw [List.length_append, List.length_singleton, Nat.lt_succ_iff] at inside
    rw [List.take_append_of_le_length inside]
    exact completes.cut fetched allowed inside

theorem Executes.unique (executes : Executes settings p start visits s)
    (again : Executes settings p start others t) (same : visits.length = others.length) :
    visits = others ∧ s = t := by
  obtain ⟨rfl, rfl⟩ | ⟨before, mid, i, completes, fetched, -, rfl, rfl⟩ := executes.eq_start_or_step
  · obtain ⟨rfl, rfl⟩ | ⟨_, _, _, _, _, _, rfl, _⟩ := again.eq_start_or_step
    · exact ⟨rfl, rfl⟩
    · simp at same
  · obtain ⟨rfl, -⟩ | ⟨before', mid', i', completes', fetched', -, rfl, rfl⟩ :=
      again.eq_start_or_step
    · simp at same
    · obtain ⟨rfl, rfl⟩ := completes.unique completes' (by simpa using same)
      cases fetched.symm.trans fetched'
      exact ⟨rfl, rfl⟩

theorem Executes.is_prefix_of (executes : Executes settings p start visits s)
    (longer : Executes settings p start others t) (le : visits.length ≤ others.length) :
    visits <+: others := by
  rcases Nat.lt_or_eq_of_le le with shorter | same
  · obtain ⟨mid, i, part, -, -⟩ := longer.cut shorter
    obtain ⟨same, -⟩ :=
      executes.unique (.completed part) (by rw [List.length_take, Nat.min_eq_left le])
    rw [same]
    exact List.take_prefix _ _
  · obtain ⟨rfl, -⟩ := executes.unique longer same
    exact List.prefix_refl _

theorem Turns.runFrom_eq (turned : Turns settings p s t) :
    runFrom settings p s = runFrom settings p t := by
  obtain ⟨i, effect, fetched, allowed, went⟩ := turned
  obtain ⟨-, -, -, counted, -⟩ := step_moved went
  obtain ⟨left, whole⟩ : ∃ left, settings.maxOps - s.completed = left + 1 :=
    Nat.exists_eq_succ_of_ne_zero (Nat.sub_ne_zero_of_lt allowed)
  rw [runFrom, whole, runFor, fetched]
  simp only [went]
  rw [runFrom, counted, Nat.sub_add_eq, whole, Nat.add_sub_cancel]

theorem Reaches.runFrom_eq (reached : Reaches settings p start s) :
    runFrom settings p start = runFrom settings p s := by
  induction reached with
  | refl => rfl
  | tail _ turned ih => exact ih.trans turned.runFrom_eq

theorem Ends.runFrom_eq {o : Outcome ι ω τ} (ends : Ends settings p s o) :
    runFrom settings p s = o := by
  cases ends with
  | finished beyond =>
    unfold runFrom runFor
    rw [beyond]
  | tooLong fetched spent =>
    rw [runFrom, Nat.sub_eq_zero_of_le spent, runFor, fetched]
  | failed fetched allowed went =>
    obtain ⟨left, whole⟩ : ∃ left, settings.maxOps - s.completed = left + 1 :=
      Nat.exists_eq_succ_of_ne_zero (Nat.sub_ne_zero_of_lt allowed)
    rw [runFrom, whole, runFor, fetched]
    simp only [went]

theorem Completes.runFrom_eq {o : Outcome ι ω τ} (completes : Completes settings p start visits s)
    (ends : Ends settings p s o) : runFrom settings p start = o :=
  completes.reaches.runFrom_eq.trans ends.runFrom_eq

theorem runFrom_completes (settings : Settings) (p : Program) (start : State ι ω τ) :
    ∃ visits last, Completes settings p start visits last ∧
    Ends settings p last (runFrom settings p start) := by
  obtain ⟨last, reached, ends⟩ := runFrom_ends settings p start
  obtain ⟨visits, completes⟩ := reached.completes
  exact ⟨visits, last, completes, ends⟩

theorem Completes.take (completes : Completes settings p start visits s) {k : Nat}
    (inside : k ≤ visits.length) :
    ∃ mid, Completes settings p start (visits.take k) mid := by
  rcases Nat.lt_or_eq_of_le inside with earlier | rfl
  · obtain ⟨mid, -, part, -, -⟩ := (Executes.completed completes).cut earlier
    exact ⟨mid, part⟩
  · rw [List.take_length]
    exact ⟨s, completes⟩

theorem Ends.length_le {o : Outcome ι ω τ} (ends : Ends settings p s o)
    (completes : Completes settings p start visits s)
    (again : Completes settings p start others t) :
    others.length ≤ visits.length := by
  by_contra further
  have beyond : visits.length + 1 ≤ others.length := Nat.not_le.1 further
  obtain ⟨mid, part⟩ := again.take beyond
  have length : (others.take (visits.length + 1)).length = visits.length + 1 := by
    rw [List.length_take, Nat.min_eq_left beyond]
  generalize others.take (visits.length + 1) = taken at part length
  cases part with
  | start => cases length
  | next before fetched allowed went =>
    obtain ⟨-, rfl⟩ := before.unique completes (by simpa using length)
    cases ends with
    | finished beyond => cases fetched.symm.trans beyond
    | tooLong _ spent => exact Nat.not_lt.2 spent allowed
    | failed fetched' _ went' =>
      cases fetched.symm.trans fetched'
      cases went.symm.trans went'

theorem Ends.executes {o : Outcome ι ω τ} (ends : Ends settings p s o)
    (completes : Completes settings p start visits s) :
    ∃ whole, Executes settings p start whole o.final ∧
      ∀ others t, Executes settings p start others t → others <+: whole := by
  have covered {others t} (executes : Executes settings p start others t) :
      others.length ≤ visits.length ∨ others.length = visits.length + 1 ∧
        ∃ i, p.instructions[s.ip]? = some i ∧ s.completed < settings.maxOps := by
    cases executes with
    | completed again => exact .inl (ends.length_le completes again)
    | failed before fetched allowed _ =>
      rw [List.length_append, List.length_singleton]
      rcases Nat.lt_or_eq_of_le (ends.length_le completes before) with earlier | same
      · exact .inl earlier
      · obtain ⟨-, rfl⟩ := before.unique completes same
        exact .inr ⟨by rw [same], _, fetched, allowed⟩
  cases ends with
  | finished beyond =>
    refine ⟨visits, .completed completes,
      fun others t executes => executes.is_prefix_of (.completed completes) ?_⟩
    obtain short | ⟨-, i, fetched, -⟩ := covered executes
    · exact short
    · cases fetched.symm.trans beyond
  | tooLong _ spent =>
    refine ⟨visits, .completed completes,
      fun others t executes => executes.is_prefix_of (.completed completes) ?_⟩
    obtain short | ⟨-, i, -, allowed⟩ := covered executes
    · exact short
    · exact absurd allowed (Nat.not_lt.2 spent)
  | failed fetched allowed went =>
    have whole := Executes.failed completes fetched allowed went
    refine ⟨_, whole, fun others t executes => executes.is_prefix_of whole ?_⟩
    rw [List.length_append, List.length_singleton]
    obtain short | ⟨same, -⟩ := covered executes
    · exact Nat.le_succ_of_le short
    · exact Nat.le_of_eq same

/-- At the end of a run every instruction has been counted. One that failed is the last in the
course and is not among those that the machine has completed. -/
theorem Ends.counted {start s : State ι ω τ} {o : Outcome ι ω τ} (ends : Ends settings p s o)
    (completes : Completes settings p start visits s) (fresh : start.completed = 0) :
    ∃ whole, Executes settings p start whole o.final ∧
      (o.failure? = none → whole.length = o.final.completed) ∧
      (∀ n, o.failure? = some (.tooLong n) → whole.length = n) ∧
      ∀ i index n fault, o.failure? = some (.instructionFailed i index n fault) →
        whole.length = n + 1 ∧ ∃ result, whole = visits ++ [⟨index, i, result⟩] := by
  have counted := completes.completed_eq
  rw [fresh, Nat.zero_add] at counted
  cases ends with
  | finished _ => exact ⟨visits, .completed completes, fun _ => counted.symm, nofun, nofun⟩
  | tooLong _ _ =>
    refine ⟨visits, .completed completes, nofun, ?_, nofun⟩
    rintro n ⟨⟩
    exact counted.symm
  | @failed i _ _ fetched allowed went =>
    obtain ⟨-, -, fault, rfl, -⟩ := step_failed went
    refine ⟨_, .failed completes fetched allowed went, nofun, nofun, ?_⟩
    rintro _ _ _ _ ⟨⟩
    rw [List.length_append, List.length_singleton, counted]
    exact ⟨rfl, _, rfl⟩

end StringStack
