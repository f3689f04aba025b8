import StringStack.Proofs.Machine.Observers
import StringStack.Proofs.Machine.Traffic

namespace StringStack

variable {ι ω τ : Type} [Source ι] [Sink ω] [Observer τ]

namespace Statistics

/-- The counts after these instructions, with the stack at this length. -/
structure Accounts (s : Statistics) (visits : List Visit) (size : Nat) : Prop where
  depth : s.depth = size
  traffic : s.pushes = s.pops + size
  counts : ∀ k, s.count k = visits.countP fun v => v.instruction.keyword = k
  total : s.total = visits.length
  jumpsTaken : s.jumpsTaken = visits.countP Visit.jumps

theorem accounts_empty : Accounts {} [] 0 := ⟨rfl, rfl, fun _ => rfl, rfl, rfl⟩

theorem observe_executed (s : Statistics) (v : Visit) :
    s.observe (.executed v.index v.instruction v.result) =
      { s with counts := bump v.instruction.keyword s.counts
               jumpsTaken := s.jumpsTaken + [v].countP Visit.jumps } := by
  obtain ⟨index, i, result⟩ := v
  rcases result with fault | _ | target
  · rfl
  · rfl
  · rfl

theorem Accounts.executed {s : Statistics} {visits : List Visit} {size pops : Nat}
    (accounts : s.Accounts visits size) (enough : pops ≤ size) (peak : s.depth ≤ s.maxDepth)
    (pushed? : Option String) (v : Visit) :
    let t := ((StringStack.traffic pops pushed?).foldl observe s).observe
      (.executed v.index v.instruction v.result)
    let height := size - pops + pushed?.toList.length
    t.Accounts (visits ++ [v]) height ∧ t.maxDepth = max height s.maxDepth := by
  intro t height
  have seen : t = _ := observe_executed _ v
  rw [foldl_traffic s pops pushed? peak] at seen
  rw [seen, accounts.depth]
  refine ⟨⟨rfl, ?_, ?_, ?_, ?_⟩, Nat.max_comm _ _⟩
  · simp only [accounts.traffic, height]
    omega
  · intro k
    rw [List.countP_append, ← accounts.counts k, List.countP_singleton]
    have bumped := lookup_bump v.instruction.keyword k s.counts
    simpa [count] using bumped
  · rw [List.length_append, List.length_singleton, ← accounts.total]
    exact sum_bump _ _
  · rw [List.countP_append, ← accounts.jumpsTaken]

/-- Of these events no one takes a value off the stack while the counted depth is zero. -/
def Covers (s : Statistics) : List Event → Prop
  | [] => True
  | e :: rest => (e = .popped → 0 < s.depth) ∧ Covers (s.observe e) rest

theorem covers_append {s : Statistics} {xs ys : List Event} :
    s.Covers (xs ++ ys) ↔ s.Covers xs ∧ (xs.foldl observe s).Covers ys := by
  induction xs generalizing s with
  | nil => exact ⟨fun covers => ⟨trivial, covers⟩, And.right⟩
  | cons e xs ih =>
    simp only [List.cons_append, Covers, List.foldl_cons, ih]
    exact and_assoc.symm

theorem covers_popped {s : Statistics} {pops : Nat} (enough : pops ≤ s.depth) :
    s.Covers (List.replicate pops .popped) := by
  induction pops generalizing s with
  | zero => trivial
  | succ pops ih =>
    refine ⟨fun _ => by omega, ih ?_⟩
    exact Nat.le_sub_one_of_lt enough

theorem covers_traffic {s : Statistics} {pops : Nat} (pushed? : Option String)
    (enough : pops ≤ s.depth) :
    s.Covers (StringStack.traffic pops pushed?) := by
  apply covers_append.2
  refine ⟨covers_popped enough, ?_⟩
  cases pushed? with
  | none => trivial
  | some v => exact ⟨nofun, trivial⟩

end Statistics

variable {settings : Settings} {p : Program} {input : ι} {output : ω} {visits : List Visit}

theorem Executes.covers {t : State ι ω History}
    (executes : Executes settings p (.start input output (⟨#[]⟩ : History)) visits t) :
    let events := t.memory.observed.events.toList
    let counted := events.foldl Statistics.observe {}
    Statistics.Covers {} events ∧ counted.depth = t.memory.stack.size ∧
      counted.depth ≤ counted.maxDepth := by
  apply executes.keeps (motive := fun _ t =>
    Statistics.Covers {} t.memory.observed.events.toList ∧
      (t.memory.observed.events.toList.foldl Statistics.observe {}).depth = t.memory.stack.size ∧
      (t.memory.observed.events.toList.foldl Statistics.observe {}).depth ≤
        (t.memory.observed.events.toList.foldl Statistics.observe {}).maxDepth)
  · exact ⟨trivial, rfl, Nat.le_refl _⟩
  · intro visits s i completes ⟨covered, depth, peak⟩ _ _
    obtain ⟨pops, pushed?, enough, length, events⟩ :=
      step_events settings p i (completes.reaches.stack_le (Nat.zero_le settings.maxStack))
    rw [← depth] at enough length
    rw [events, List.foldl_append, List.foldl_append, Statistics.covers_append,
      Statistics.covers_append, Statistics.foldl_traffic _ pops pushed? peak, length]
    exact ⟨⟨covered, Statistics.covers_traffic pushed? enough, nofun, trivial⟩,
      rfl, Nat.le_max_right _ _⟩

theorem Executes.accounts {t : State ι ω Statistics}
    (executes : Executes settings p (.start input output ({} : Statistics)) visits t) :
    t.memory.observed.Accounts visits t.memory.stack.size ∧
      IsGreatest (heights settings p (.start input output ({} : Statistics)) visits)
        t.memory.observed.maxDepth := by
  apply executes.keeps (motive := fun visits t =>
    t.memory.observed.Accounts visits t.memory.stack.size ∧
      IsGreatest (heights settings p (.start input output ({} : Statistics)) visits)
        t.memory.observed.maxDepth)
  · refine ⟨Statistics.accounts_empty, ?_⟩
    rw [heights_nil]
    exact isGreatest_singleton
  · intro visits s i completes ⟨accounts, greatest⟩ fetched allowed
    obtain ⟨pops, pushed?, enough, length, heard⟩ :=
      step_carried settings p i (completes.reaches.stack_le (Nat.zero_le settings.maxStack))
    have peak : s.memory.observed.depth ≤ s.memory.observed.maxDepth := by
      rw [accounts.depth]
      exact greatest.2 (Executes.completed completes).mem_heights
    obtain ⟨counted, highest⟩ := accounts.executed enough peak pushed? (visit settings p i s)
    rw [heights_concat (completes.executes_step fetched allowed), length, heard]
    exact ⟨counted, highest ▸ greatest.insert _⟩

theorem Executes.maxDepth_le {t : State ι ω Statistics}
    (executes : Executes settings p (.start input output ({} : Statistics)) visits t) :
    t.memory.observed.maxDepth ≤ settings.maxStack := by
  obtain ⟨-, ⟨sofar, s, -, part, size⟩, -⟩ := executes.accounts
  exact size ▸ part.size_le (Nat.zero_le settings.maxStack)

theorem deepest_maxDepth (settings : Settings) (p : Program) (input : ι) (output : ω) :
    Deepest settings p (.start input output ({} : Statistics))
      (run settings p input output ({} : Statistics)).final.memory.observed.maxDepth := by
  obtain ⟨visits, last, completes, ends⟩ :=
    runFrom_completes settings p (.start input output ({} : Statistics))
  obtain ⟨whole, executes, covered⟩ := ends.executes completes
  obtain ⟨⟨sofar, s, -, part, size⟩, highest⟩ := executes.accounts.2
  refine ⟨⟨sofar, s, part, size⟩, ?_⟩
  rintro n ⟨others, t, again, rfl⟩
  exact highest ⟨others, t, covered others t again, again, rfl⟩

/-- After every instruction, completed or failed half way, the counts agree with the machine: the
depth is the length of the stack, and has never been taken below zero; what was pushed is what was
popped and what is there; the greatest depth is the greatest length so far, within the limit; the
keywords are those of the executed instructions, and the jumps those that set the instruction
pointer. In the end all of them together are as many as the machine has completed, and one more if
an instruction failed, which is the last. -/
theorem statistics_agree (settings : Settings) (p : Program) (input : ι) (output : ω) :
    let start : State ι ω Statistics := .start input output {}
    let o := run settings p input output ({} : Statistics)
    let events :=
      (run settings p input output (⟨#[]⟩ : History)).final.memory.observed.events.toList
    (∀ visits t, Executes settings p start visits t →
      t.memory.observed.Accounts visits t.memory.stack.size ∧
      IsGreatest (heights settings p start visits) t.memory.observed.maxDepth ∧
      t.memory.observed.maxDepth ≤ settings.maxStack) ∧
    (events.foldl Statistics.observe {} = o.final.memory.observed ∧
      ∀ before after, events = before ++ .popped :: after →
        0 < (before.foldl Statistics.observe {}).depth) ∧
    ∃ whole, Executes settings p start whole o.final ∧
      (o.failure? = none → o.final.memory.observed.total = o.final.completed) ∧
      (∀ n, o.failure? = some (.tooLong n) → o.final.memory.observed.total = n) ∧
      ∀ i index n fault, o.failure? = some (.instructionFailed i index n fault) →
        o.final.memory.observed.total = n + 1 ∧
          ∃ completed result, whole = completed ++ [⟨index, i, result⟩] := by
  intro start o events
  refine ⟨?_, ⟨?_, ?_⟩, ?_⟩
  · intro visits t executes
    exact ⟨executes.accounts.1, executes.accounts.2, executes.maxDepth_le⟩
  · have seen := run_eq_seenBy_history settings p input output ({} : Statistics)
    exact (congrArg (fun o => o.final.memory.observed) seen).symm
  · intro before after split
    obtain ⟨visits, last, completes, ends⟩ :=
      runFrom_completes settings p (.start input output (⟨#[]⟩ : History))
    obtain ⟨whole, executes, -⟩ := ends.executes completes
    obtain ⟨covered, -⟩ := executes.covers
    have covers : Statistics.Covers {} events := covered
    rw [split, Statistics.covers_append] at covers
    exact covers.2.1 rfl
  · obtain ⟨visits, last, completes, ends⟩ := runFrom_completes settings p start
    obtain ⟨whole, executes, finished, tooLong, failed⟩ := ends.counted completes rfl
    have counted : o.final.memory.observed.total = whole.length := executes.accounts.1.total
    refine ⟨whole, executes, ?_, ?_, ?_⟩
    · intro ended
      exact counted.trans (finished ended)
    · intro n ended
      exact counted.trans (tooLong n ended)
    · intro i index n fault ended
      obtain ⟨length, last_visit⟩ := failed i index n fault ended
      exact ⟨counted.trans length, visits, last_visit⟩

example : (run {} ⟨#[.push "a", .concat], .empty⟩ ([] : List String) (⟨#[]⟩ : Collected)
    ({} : Statistics)).final.memory.observed =
      { counts := [(.push, 1), (.concat, 1)], pushes := 1, pops := 1, maxDepth := 1 } := by rfl

end StringStack
