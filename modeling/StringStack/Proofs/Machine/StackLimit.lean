import StringStack.Proofs.Machine.Statistics

/-! The limit on the stack. An instruction looks at it only where it puts a value on a stack from
which it has taken none, and there it fails exactly if the stack is full. So as long as the stack of
the run under the larger limit stays within the smaller one, both runs do the same, and the run
under the smaller limit fails at the instruction that would have taken the stack beyond it. -/
namespace StringStack

variable {ι ω τ : Type} [Observer τ]

namespace ListMachine

structure Overflows (small : Nat) (m : Memory ι ω τ)
    (narrow wide : Except Fault Effect × Memory ι ω τ) : Prop where
  fails : narrow.1 = .error .pushFailed
  output : narrow.2.output = m.output
  succeeds : wide.1 = .ok .next
  higher : wide.2.stack.length = small + 1

theorem push_of_full {limit : Nat} (v : String) {m : Memory ι ω τ} (full : m.stack.length = limit) :
    push limit v m = (.error .pushFailed, m) :=
  if_pos full

theorem push_limit {small big : Nat} (v : String) {m : Memory ι ω τ} (fits : m.stack.length ≤ small)
    (tight : small ≤ big) :
    push small v m = push big v m ∨ Overflows small m (push small v m) (push big v m) := by
  rcases Nat.lt_or_eq_of_le fits with room | full
  · left
    rw [push_of_lt v room, push_of_lt v (Nat.lt_of_lt_of_le room tight)]
  · rcases Nat.lt_or_eq_of_le tight with less | rfl
    · right
      rw [push_of_full v full, push_of_lt v (Nat.lt_of_le_of_lt fits less)]
      exact ⟨rfl, rfl, rfl, congrArg (· + 1) full⟩
    · exact .inl rfl

theorem full_of_push {limit : Nat} {v : String} {m : Memory ι ω τ}
    (failed : (push limit v m).1 = .error .pushFailed) :
    m.stack.length = limit ∧ (push limit v m).2.stack = m.stack := by
  unfold push at failed ⊢
  split at failed
  · next full =>
    rw [if_pos full]
    exact ⟨full, rfl⟩
  · cases failed

variable [Source ι] [Sink ω]

theorem act_limit {small big : Nat} (labels : LabelTable) (i : Instruction) {m : Memory ι ω τ}
    (fits : m.stack.length ≤ small) (tight : small ≤ big) :
    act small labels i m = act big labels i m ∨
    Overflows small m (act small labels i m) (act big labels i m) := by
  obtain ⟨-, v, input, pushes⟩ | free := act_cases labels i m
  · rw [pushes, pushes]
    rcases push_limit v (m := { m with input }) fits tight with same | overflows
    · exact .inl same
    · exact .inr ⟨overflows.fails, overflows.output, overflows.succeeds, overflows.higher⟩
  · exact .inl ((free big).1 small)

theorem act_pushFailed (limit : Nat) (labels : LabelTable) (i : Instruction) (m : Memory ι ω τ)
    (failed : (act limit labels i m).1 = .error .pushFailed) :
    i.Adds ∧ m.stack.length = limit ∧ (act limit labels i m).2.stack = m.stack := by
  obtain ⟨adds, v, input, pushes⟩ | free := act_cases labels i m
  · rw [pushes] at failed ⊢
    exact ⟨adds, full_of_push failed⟩
  · exact absurd failed (free limit).2.room

end ListMachine

variable [Source ι] [Sink ω] {settings : Settings} {p : Program} {small : Nat}

/-- The step that is refused under the smaller limit and takes the stack above it under the larger
one. -/
structure Refuses (settings : Settings) (p : Program) (small : Nat) (i : Instruction)
    (s : State ι ω τ) : Prop where
  fails : ∃ last, step { settings with maxStack := small } p i s =
    .failed (.instructionFailed i s.ip s.completed .pushFailed) last ∧
      last.memory.output = s.memory.output
  succeeds : ∃ after, step settings p i s = .moved .next after ∧ after.memory.stack.size = small + 1

theorem step_limit (i : Instruction) {s : State ι ω τ}
    (fits : s.memory.onLists.stack.length ≤ small) (tight : small ≤ settings.maxStack) :
    (step { settings with maxStack := small } p i s = step settings p i s ∧
        visit { settings with maxStack := small } p i s = visit settings p i s) ∨
          Refuses settings p small i s := by
  have narrow := perform_onLists { settings with maxStack := small } p.labels i fits
  have wide := perform_onLists settings p.labels i (Nat.le_trans fits tight)
  rcases ListMachine.act_limit p.labels i fits tight with same | overflows
  · left
    have performed := reply_injective (narrow.trans (same.trans wide.symm))
    unfold step visit
    rw [performed]
    exact ⟨rfl, rfl⟩
  · right
    rw [← narrow, ← wide] at overflows
    obtain ⟨fails, output, succeeds, higher⟩ := overflows
    constructor
    · cases performed : perform { settings with maxStack := small } p.labels i s.memory with
      | ok effect m =>
        rw [performed] at fails
        cases fails
      | error fault m =>
        rw [performed] at fails output
        cases fails
        exact ⟨_, step_of_error performed, output⟩
    · cases performed : perform settings p.labels i s.memory with
      | error fault m =>
        rw [performed] at succeeds
        cases succeeds
      | ok effect m =>
        rw [performed] at succeeds higher
        cases succeeds
        exact ⟨_, step_of_ok performed .next, m.length_stack_onLists.symm.trans higher⟩

variable {start s t : State ι ω τ} {visits : List Visit}

theorem Completes.narrowed (completes : Completes settings p start visits s)
    (tight : small ≤ settings.maxStack) (low : ∀ n ∈ heights settings p start visits, n ≤ small) :
    Completes { settings with maxStack := small } p start visits s := by
  induction completes with
  | start => exact .start
  | @next visits s next i _ before fetched allowed went ih =>
    have executes := Executes.completed (before.next fetched allowed went)
    have fits : s.memory.stack.size ≤ small := by
      apply low
      rw [heights_concat executes]
      exact .inr (Executes.completed before).mem_heights
    rcases step_limit i (s.memory.length_stack_onLists ▸ fits) tight with ⟨same, visited⟩ | refuses
    · rw [← same] at went
      rw [← visited]
      refine .next (ih ?_) fetched allowed went
      intro n member
      apply low
      rw [heights_concat executes]
      exact .inr member
    · obtain ⟨after, succeeds, higher⟩ := refuses.succeeds
      cases went.symm.trans succeeds
      exact absurd (low _ executes.mem_heights) (by omega)

theorem Ends.narrowed {o : Outcome ι ω τ} (ends : Ends settings p s o)
    (tight : small ≤ settings.maxStack) (fits : s.memory.stack.size ≤ small) :
    Ends { settings with maxStack := small } p s o := by
  cases ends with
  | finished beyond => exact .finished beyond
  | tooLong fetched spent => exact .tooLong fetched spent
  | @failed i _ _ fetched allowed went =>
    rcases step_limit i (s.memory.length_stack_onLists ▸ fits) tight with ⟨same, -⟩ | refuses
    · rw [← same] at went
      exact .failed fetched allowed went
    · obtain ⟨after, succeeds, -⟩ := refuses.succeeds
      cases went.symm.trans succeeds

/-- The stack has stayed within this length, and then an instruction takes it above. -/
structure Crosses (settings : Settings) (p : Program) (start : State ι ω τ) (small : Nat)
    (visits : List Visit) (before : State ι ω τ) (i : Instruction) (after : State ι ω τ) :
    Prop where
  course : Completes settings p start visits before
  low : ∀ n ∈ heights settings p start visits, n ≤ small
  fetched : p.instructions[before.ip]? = some i
  further : Completes settings p start (visits ++ [visit settings p i before]) after
  high : small < after.memory.stack.size

/-- A stack that does not stay low has a first instruction that takes it too high, and the smaller
limit refuses just that one. -/
theorem Executes.low_or_crosses (executes : Executes settings p start visits t)
    (tight : small ≤ settings.maxStack) (begins : start.memory.stack.size ≤ small) :
    (∀ n ∈ heights settings p start visits, n ≤ small) ∨
      ∃ visits before i after, Crosses settings p start small visits before i after ∧
        Refuses settings p small i before := by
  apply executes.keeps (motive := fun visits _ =>
    (∀ n ∈ heights settings p start visits, n ≤ small) ∨ _)
  · left
    rw [heights_nil]
    rintro n rfl
    exact begins
  · rintro visits s i completes (low | crosses) fetched allowed
    · have fits : s.memory.onLists.stack.length ≤ small :=
        s.memory.length_stack_onLists ▸ low _ (Executes.completed completes).mem_heights
      rcases step_limit i fits tight with ⟨same, -⟩ | refuses
      · left
        rw [heights_concat (completes.executes_step fetched allowed)]
        rintro n (rfl | member)
        · rw [← same, ← Memory.length_stack_onLists]
          exact step_stack_le { settings with maxStack := small } p i fits
        · exact low n member
      · right
        obtain ⟨after, succeeds, higher⟩ := refuses.succeeds
        have further := completes.next fetched allowed succeeds
        exact ⟨visits, s, i, after, ⟨completes, low, fetched, further,
          higher ▸ Nat.lt_succ_self small⟩, refuses⟩
    · exact .inr crosses

theorem Crosses.runFrom_eq {before after : State ι ω τ} {i : Instruction}
    (crosses : Crosses settings p start small visits before i after)
    (refuses : Refuses settings p small i before) (tight : small ≤ settings.maxStack)
    (fresh : start.completed ≤ settings.maxOps) :
    ∃ last, runFrom { settings with maxStack := small } p start =
      ⟨some (.instructionFailed i before.ip before.completed .pushFailed), last⟩ ∧
      last.memory.output = before.memory.output := by
  obtain ⟨last, fails, output⟩ := refuses.fails
  have counted := crosses.course.completed_eq
  have within := crosses.further.length_le fresh
  rw [List.length_append, List.length_singleton] at within
  have allowed : before.completed < settings.maxOps := by omega
  refine ⟨last, ?_, output⟩
  exact (crosses.course.narrowed tight crosses.low).runFrom_eq
    (.failed crosses.fetched allowed fails)

theorem Ends.pushFailed {o : Outcome ι ω τ} {i : Instruction} {index n : Nat}
    (ends : Ends settings p s o) (fits : s.memory.onLists.stack.length ≤ settings.maxStack)
    (failed : o.failure? = some (.instructionFailed i index n .pushFailed)) :
    i.Adds ∧ o.final.memory.stack.size = settings.maxStack := by
  obtain ⟨-, -, -, -, breaks, went, -⟩ := ends.of_instructionFailed failed
  cases breaks with
  | fault result =>
    have performed := perform_onLists settings p.labels i fits
    rw [result] at performed
    obtain ⟨adds, full, kept⟩ :=
      ListMachine.act_pushFailed settings.maxStack p.labels i s.memory.onLists
      (congrArg Prod.fst performed).symm
    refine ⟨adds, ?_⟩
    have left := step_state_onLists settings p i fits
    rw [went] at left
    have stack := congrArg ListMachine.Memory.stack left
    rw [← full, ← kept, ← Memory.length_stack_onLists]
    exact congrArg List.length stack

/-- Runs that differ in the limit on the stack alone do exactly the same if the stack of the run
under the larger limit stays within the smaller one. If it does not, the run under the smaller limit
fails at the very instruction that first takes the other run's stack above it, and has written what
was written before that. In every run the stack is within its limit, and only an instruction that
adds a value, and takes none, fails for it, when the stack is full. -/
theorem stack_limit_truncates (settings : Settings) (p : Program) {small : Nat}
    (tight : small ≤ settings.maxStack) (input : ι) (output : ω) (observed : τ) :
    let start : State ι ω τ := .start input output observed
    let wide := run settings p input output observed
    let narrow := run { settings with maxStack := small } p input output observed
    (∃ d, Deepest settings p start d ∧ (d ≤ small → narrow = wide) ∧
      (small < d → ∃ visits before i after, Crosses settings p start small visits before i after ∧
        narrow.failure? = some (.instructionFailed i before.ip before.completed .pushFailed) ∧
        narrow.final.memory.output = before.memory.output)) ∧
    (∀ visits t, Executes settings p start visits t → t.memory.stack.size ≤ settings.maxStack) ∧
    ∀ i index n, wide.failure? = some (.instructionFailed i index n .pushFailed) →
      i.Adds ∧ wide.final.memory.stack.size = settings.maxStack := by
  intro start wide narrow
  obtain ⟨visits, last, completes, ends⟩ := runFrom_completes settings p start
  have empty : start.memory.onLists.stack.length ≤ settings.maxStack := Nat.zero_le _
  refine ⟨?_, ?_, ?_⟩
  · obtain ⟨d, ⟨others, t, executes, size⟩, highest⟩ := exists_deepest (p := p) empty
    refine ⟨d, ⟨⟨others, t, executes, size⟩, highest⟩, ?_, ?_⟩
    · intro fits
      have low : ∀ n ∈ heights settings p start visits, n ≤ small := by
        rintro n ⟨sofar, u, -, part, rfl⟩
        exact Nat.le_trans (highest ⟨sofar, u, part, rfl⟩) fits
      have within := low _ (Executes.completed completes).mem_heights
      exact (completes.narrowed tight low).runFrom_eq (ends.narrowed tight within)
    · intro exceeds
      rcases executes.low_or_crosses tight (Nat.zero_le small) with low |
        ⟨_, before, i, after, crosses, refuses⟩
      · exact absurd (low _ executes.mem_heights) (by omega)
      · obtain ⟨stopped, cut, written⟩ :=
          crosses.runFrom_eq refuses tight (Nat.zero_le settings.maxOps)
        have narrowed : narrow = _ := cut
        exact ⟨_, before, i, after, crosses, by rw [narrowed], by rw [narrowed]; exact written⟩
  · intro visits t executes
    exact executes.size_le empty
  · intro i index n failed
    exact ends.pushFailed (completes.reaches.stack_le empty) failed

theorem stack_limit_truncates_at_push :
    let p : Program := ⟨#[.push "a", .write, .push "b", .pop], .empty⟩
    let limited (l : Nat) :=
      run { maxStack := l } p ([] : List String) (⟨#[]⟩ : Collected) ({} : Statistics)
    limited 2 = limited 3 ∧ ∃ i index n,
      (limited 1).failure? = some (.instructionFailed i index n .pushFailed) ∧ i.Adds ∧
      (limited 1).final.memory.stack.size = 1 := by
  intro p limited
  obtain ⟨⟨d, deepest, same, -⟩, -⟩ :=
    stack_limit_truncates { maxStack := 3 } p (show 2 ≤ 3 by decide) ([] : List String)
      (⟨#[]⟩ : Collected) ({} : Statistics)
  obtain ⟨⟨e, deepest', -, truncated⟩, -, -⟩ :=
    stack_limit_truncates { maxStack := 3 } p (show 1 ≤ 3 by decide) ([] : List String)
      (⟨#[]⟩ : Collected) ({} : Statistics)
  obtain ⟨-, -, refused⟩ :=
    stack_limit_truncates { maxStack := 1 } p (Nat.le_refl 1) ([] : List String) (⟨#[]⟩ : Collected)
      ({} : Statistics)
  have counted := deepest_maxDepth { maxStack := 3 } p ([] : List String) (⟨#[]⟩ : Collected)
  have two : (limited 3).final.memory.observed.maxDepth = 2 := by rfl
  have d_two : d = 2 := (deepest.unique counted).trans two
  have e_two : e = 2 := (deepest'.unique counted).trans two
  obtain ⟨visits, before, i, after, -, ended, -⟩ := truncated (e_two ▸ Nat.lt_succ_self 1)
  exact ⟨same (Nat.le_of_eq d_two), i, _, _, ended, refused _ _ _ ended⟩

end StringStack
