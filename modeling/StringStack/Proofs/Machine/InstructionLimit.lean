import StringStack.Proofs.Machine.Output

namespace StringStack

variable {ι ω τ : Type} [Source ι] [Sink ω] [Observer τ] {settings : Settings} {p : Program}

theorem perform_maxOps (settings : Settings) (l : Nat) (labels : LabelTable) (i : Instruction)
    (m : Memory ι ω τ) :
    perform { settings with maxOps := l } labels i m = perform settings labels i m := by
  cases i with
  | _ => rfl

theorem step_maxOps (settings : Settings) (l : Nat) (p : Program) (i : Instruction)
    (s : State ι ω τ) :
    step { settings with maxOps := l } p i s = step settings p i s := by
  simp only [step, perform_maxOps]

theorem visit_maxOps (settings : Settings) (l : Nat) (p : Program) (i : Instruction)
    (s : State ι ω τ) :
    visit { settings with maxOps := l } p i s = visit settings p i s := by
  simp only [visit, perform_maxOps]

variable {start s last : State ι ω τ} {visits : List Visit} {l : Nat}

theorem Completes.limited (completes : Completes settings p start visits s)
    (room : start.completed + visits.length ≤ l) :
    Completes { settings with maxOps := l } p start visits s := by
  induction completes with
  | start => exact .start
  | @next visits s _ i _ before fetched _ went ih =>
    rw [List.length_append, List.length_singleton] at room
    have counted := before.completed_eq
    have allowed : s.completed < l := by omega
    rw [← step_maxOps settings l] at went
    rw [← visit_maxOps settings l]
    exact .next (ih (by omega)) fetched allowed went

theorem Turns.completed_lt {next : State ι ω τ} (turned : Turns settings p s next) :
    s.completed < settings.maxOps ∧ next.completed = s.completed + 1 := by
  obtain ⟨i, effect, -, allowed, went⟩ := turned
  obtain ⟨-, -, -, counted, -⟩ := step_moved went
  exact ⟨allowed, counted⟩

/-- Every turn uses up some of the limit, so that no run goes on forever. -/
theorem wellFounded_turns (settings : Settings) (p : Program) :
    WellFounded fun next s : State ι ω τ => Turns settings p s next := by
  refine Subrelation.wf (r := InvImage (· < ·) fun s : State ι ω τ =>
    settings.maxOps - s.completed) ?_
    (InvImage.wf _ Nat.lt_wfRel.wf)
  intro next s turned
  obtain ⟨allowed, counted⟩ := turned.completed_lt
  exact (by omega : settings.maxOps - next.completed < settings.maxOps - s.completed)

theorem Reaches.completed_le (reached : Reaches settings p start s)
    (fresh : start.completed ≤ settings.maxOps) :
    s.completed ≤ settings.maxOps := by
  apply reached.keeps fresh
  intro s next turned _
  obtain ⟨allowed, counted⟩ := turned.completed_lt
  exact counted ▸ allowed

theorem Ends.final_completed {o : Outcome ι ω τ} (ends : Ends settings p s o) :
    o.final.completed = s.completed := by
  cases ends with
  | finished _ => rfl
  | tooLong _ _ => rfl
  | failed _ _ went => exact (step_failed went).2.1

theorem Completes.tooLong {i : Instruction} (part : Completes settings p start visits s)
    (fetched : p.instructions[s.ip]? = some i) (spent : start.completed + visits.length = l) :
    runFrom { settings with maxOps := l } p start = ⟨some (.tooLong l), s⟩ := by
  have counted : s.completed = l := part.completed_eq.trans spent
  have ends : Ends { settings with maxOps := l } p s ⟨some (.tooLong s.completed), s⟩ :=
    .tooLong fetched (Nat.le_of_eq counted.symm)
  rw [(part.limited (Nat.le_of_eq spent)).runFrom_eq ends, counted]

theorem Executes.tooLong (executes : Executes settings p start visits s)
    (fresh : start.completed ≤ l) (short : l < start.completed + visits.length) :
    (runFrom { settings with maxOps := l } p start).failure? = some (.tooLong l) := by
  have inside : l - start.completed < visits.length := by omega
  obtain ⟨mid, i, part, fetched, -⟩ := executes.cut inside
  have length : (visits.take (l - start.completed)).length = l - start.completed := by
    rw [List.length_take, Nat.min_eq_left (Nat.le_of_lt inside)]
  rw [part.tooLong fetched (by omega)]

section Endings

variable {o : Outcome ι ω τ}

theorem Ends.finished_limited (ends : Ends settings p s o)
    (completes : Completes settings p start visits s) (finished : o.failure? = none)
    (fresh : start.completed ≤ l) :
    (s.completed ≤ l → runFrom { settings with maxOps := l } p start = o) ∧
      (l < s.completed →
        (runFrom { settings with maxOps := l } p start).failure? = some (.tooLong l)) := by
  have counted := completes.completed_eq
  obtain ⟨rfl, beyond⟩ := ends.of_finished finished
  constructor
  · intro room
    exact (completes.limited (counted ▸ room)).runFrom_eq (.finished beyond)
  · intro short
    exact (Executes.completed completes).tooLong fresh (counted ▸ short)

theorem Ends.failed_limited {i : Instruction} {index n : Nat} {fault : Fault}
    (ends : Ends settings p s o) (completes : Completes settings p start visits s)
    (failed : o.failure? = some (.instructionFailed i index n fault))
    (fresh : start.completed ≤ l) :
    (n < l → runFrom { settings with maxOps := l } p start = o) ∧
      (l ≤ n → (runFrom { settings with maxOps := l } p start).failure? = some (.tooLong l)) := by
  have counted := completes.completed_eq
  obtain ⟨rfl, rfl, fetched, allowed, -, went, ended⟩ := ends.of_instructionFailed failed
  constructor
  · intro room
    have under := completes.limited (l := l) (by omega)
    rw [← step_maxOps settings l] at went
    rw [ended]
    exact under.runFrom_eq (.failed fetched room went)
  · intro short
    apply (Executes.failed completes fetched allowed went).tooLong fresh
    rw [List.length_append, List.length_singleton]
    omega

end Endings

theorem Ends.output_prefix {start s : State ι Collected τ} {o : Outcome ι Collected τ}
    (ends : Ends settings p s o) (completes : Completes settings p start visits s)
    (fresh : start.completed ≤ settings.maxOps) (le : settings.maxOps ≤ l)
    (fits : start.memory.onLists.stack.length ≤ settings.maxStack) :
    o.final.memory.output.values.toList <+:
      (runFrom { settings with maxOps := l } p start).final.memory.output.values.toList := by
  have under := completes.limited (Nat.le_trans (completes.length_le fresh) le)
  cases ends with
  | finished beyond =>
    have same := under.runFrom_eq (.finished beyond)
    simp only [same, List.prefix_refl]
  | tooLong _ _ =>
    rw [under.reaches.runFrom_eq]
    exact Collected.grows (runFrom_output_extends { settings with maxOps := l } p
      (under.reaches.stack_le fits))
  | failed fetched allowed went =>
    rw [← step_maxOps settings l] at went
    have same := under.runFrom_eq (.failed fetched (Nat.lt_of_lt_of_le allowed le) went)
    simp only [same, List.prefix_refl]

/-- Every run under a limit ends, within its limit, so that its counter does not outgrow a word if
the limit does not, and only the limit itself is reported as passed. A run that finishes or fails
does exactly the same under every other limit that leaves room for it, and is cut off by every limit
that does not; what is written under the smaller of two limits is the first part of what is written
under the larger one. -/
theorem instruction_limit_truncates (settings : Settings) (p : Program) (input : ι)
    (output : Collected) (observed : τ) :
    let start : State ι Collected τ := .start input output observed
    let limited (l : Nat) := run { settings with maxOps := l } p input output observed
    (∀ l,
      (WellFounded fun next s : State ι Collected τ =>
        Turns { settings with maxOps := l } p s next) ∧
      (∃ last, Reaches { settings with maxOps := l } p start last ∧
        Ends { settings with maxOps := l } p last (limited l)) ∧
      (∀ s, Reaches { settings with maxOps := l } p start s →
        s.completed ≤ l ∧ (l < Text.Decimal.wordLimit → s.completed < Text.Decimal.wordLimit)) ∧
      (limited l).final.completed ≤ l ∧
      ∀ n, (limited l).failure? = some (.tooLong n) → n = l) ∧
    ∀ l l',
      ((limited l).failure? = none →
        ((limited l).final.completed ≤ l' → limited l' = limited l) ∧
        (l' < (limited l).final.completed → (limited l').failure? = some (.tooLong l'))) ∧
      (∀ i index n fault, (limited l).failure? = some (.instructionFailed i index n fault) →
        (n < l' → limited l' = limited l) ∧ (l' ≤ n → (limited l').failure? = some (.tooLong l'))) ∧
      (l ≤ l' → (limited l).final.memory.output.values.toList <+:
        (limited l').final.memory.output.values.toList) := by
  intro start limited
  refine ⟨fun l => ?_, fun l l' => ?_⟩
  · obtain ⟨last, reached, ends⟩ := runFrom_ends { settings with maxOps := l } p start
    have bounded : last.completed ≤ l := reached.completed_le (Nat.zero_le l)
    refine ⟨wellFounded_turns _ p, ⟨last, reached, ends⟩, ?_, ?_, ?_⟩
    · intro s reached
      have within : s.completed ≤ l := reached.completed_le (Nat.zero_le l)
      exact ⟨within, Nat.lt_of_le_of_lt within⟩
    · exact ends.final_completed ▸ bounded
    · intro n cut
      obtain ⟨-, spent, rfl⟩ := ends.of_tooLong cut
      exact Nat.le_antisymm bounded spent
  · obtain ⟨visits, last, completes, ends⟩ :=
      runFrom_completes { settings with maxOps := l } p start
    refine ⟨?_, ?_, ?_⟩
    · intro finished
      have counted : (limited l).final.completed = last.completed := ends.final_completed
      rw [counted]
      exact ends.finished_limited completes finished (Nat.zero_le l')
    · intro i index n fault failed
      exact ends.failed_limited completes failed (Nat.zero_le l')
    · intro le
      exact ends.output_prefix completes (Nat.zero_le l) le (Nat.zero_le settings.maxStack)

theorem instruction_limit_truncates_at_failure :
    let p : Program := ⟨#[.push "a", .write, .pop, .pop], .empty⟩
    let limited (l : Nat) := run { maxOps := l } p ([] : List String) (⟨#[]⟩ : Collected) ()
    (limited 9).failure? = some (.instructionFailed .pop 3 3 (.stackUnderflow 0 0)) ∧
      limited 4 = limited 9 ∧
      (limited 3).failure? = some (.tooLong 3) ∧
      (limited 1).final.memory.output.values.toList <+:
        (limited 9).final.memory.output.values.toList := by
  intro p limited
  have failed :
      (limited 9).failure? = some (.instructionFailed .pop 3 3 (.stackUnderflow 0 0)) := by
    rfl
  obtain ⟨-, compared⟩ := instruction_limit_truncates {} p ([] : List String) (⟨#[]⟩ : Collected) ()
  obtain ⟨-, from_nine, -⟩ := compared 9 4
  obtain ⟨-, short_of_nine, -⟩ := compared 9 3
  obtain ⟨-, -, from_one⟩ := compared 1 9
  exact ⟨failed, (from_nine _ _ _ _ failed).1 (by decide),
    (short_of_nine _ _ _ _ failed).2 (by decide),
    from_one (by decide)⟩

end StringStack
