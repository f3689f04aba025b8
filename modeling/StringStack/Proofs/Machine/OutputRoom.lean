import StringStack.Proofs.Machine.Output
import StringStack.Proofs.Machine.Path
import StringStack.Proofs.Machine.Transport

/-! Output that becomes bytes, and a room that may be too small for it. A line output without a
limit takes the lines of the values that a collecting output takes, so both runs are the same. An
output with a limit does what the one without a limit does until a line does not fit; it keeps as
much of that line as there is room for and fails there, at the `WRITE` at which the collecting run
takes the same value and goes on. -/
namespace StringStack

variable {ι τ : Type}

/-- The values that were collected as lines of bytes. -/
def Collected.lines (out : Collected) : LineOutput :=
  ⟨none, (out.values.toList.flatMap LineOutput.line).toArray⟩

theorem Collected.lines_push (out : Collected) (v : String) :
    (⟨out.values.push v⟩ : Collected).lines = ⟨none, out.lines.written ++ LineOutput.line v⟩ := by
  simp [lines]

namespace LineOutput

def unlimited (out : LineOutput) : LineOutput := ⟨none, out.written⟩

structure Within (out : LineOutput) (room : Nat) : Prop where
  capacity : out.capacity = some room
  size_le : out.written.size ≤ room

inductive Writes (out : LineOutput) (room : Nat) (v : String) :
    Option DeviceFault × LineOutput → Prop where
  | whole {next : LineOutput} : (out.written.toList ++ line v).length ≤ room →
      next.capacity = some room →
      next.written.toList = out.written.toList ++ line v → Writes out room v (none, next)
  | cut {next : LineOutput} : room < (out.written.toList ++ line v).length →
      next.capacity = some room →
      next.written.toList = (out.written.toList ++ line v).take room →
        Writes out room v (some .noRoom, next)

variable {out : LineOutput} {room : Nat}

theorem Within.writes (within : out.Within room) (v : String) :
    Writes out room v (Sink.write out v) := by
  obtain ⟨capacity, written⟩ := out
  obtain ⟨rfl, size⟩ := within
  have length : (written.toList ++ line v).length = written.size + (line v).length := by simp
  simp only at size
  simp only [Sink.write, write]
  split
  · next fits =>
    refine .whole ?_ rfl Array.toList_appendList
    rw [length]
    omega
  · next beyond =>
    refine .cut ?_ rfl ?_
    · rw [length]
      omega
    · rw [Array.toList_appendList, List.take_append, List.take_of_length_le size]
      rfl

theorem Within.write (within : out.Within room) (v : String) :
    (Sink.write out v).2.Within room := by
  have writes := within.writes v
  generalize Sink.write out v = r at writes
  cases writes with
  | whole fits capacity written =>
    refine ⟨capacity, ?_⟩
    rwa [← Array.length_toList, written]
  | cut _ capacity written =>
    refine ⟨capacity, ?_⟩
    rw [← Array.length_toList, written]
    exact List.length_take_le room _

theorem Within.extends {a b : LineOutput} (within : a.Within room) (more : Sink.Extends a b) :
    b.Within room := by
  obtain ⟨values, rfl⟩ := more
  induction values generalizing a with
  | nil => exact within
  | cons v values ih => exact ih (within.write v)

end LineOutput

theorem lifts_write_lines (mended : Fault → Prop) (v : String) :
    Lifts (Memory.convert id Collected.lines id : Memory ι Collected τ → Memory ι LineOutput τ)
      mended (Memory.write v) (Memory.write v) := by
  intro m
  right
  have collected : resultThrough (Memory.convert id Collected.lines id) (Memory.write v m) =
      .ok () ⟨m.stack, m.input, (⟨m.output.values.push v⟩ : Collected).lines, m.observed⟩ := rfl
  rw [collected, m.output.lines_push]
  rfl

theorem lifts_write_unlimited (v : String) :
    Lifts
      (Memory.convert id LineOutput.unlimited id : Memory ι LineOutput τ → Memory ι LineOutput τ)
      (· = .outputFailed .noRoom) (Memory.write v) (Memory.write v) := by
  rintro ⟨stack, input, ⟨_ | n, written⟩, observed⟩
  · exact .inr rfl
  · simp only [Memory.write, Sink.write, LineOutput.write]
    by_cases fits : (LineOutput.line v).length ≤ n - written.size
    · right
      simp only [if_pos fits]
      rfl
    · left
      simp only [if_neg fits]
      exact ⟨_, _, rfl, rfl⟩

variable [Source ι] [Observer τ]

theorem transports_lines (settings : Settings) :
    Transports (Memory.convert id Collected.lines id : Memory ι Collected τ → Memory ι LineOutput τ)
      (fun _ => False) settings settings :=
  transports_convert settings (lifts_read (fun _ => rfl) (fun _ => rfl) fun _ _ => rfl)
    (lifts_write_lines _) fun _ _ => rfl

theorem transports_unlimited (settings : Settings) :
    Transports
      (Memory.convert id LineOutput.unlimited id : Memory ι LineOutput τ → Memory ι LineOutput τ)
      (· = .outputFailed .noRoom) settings settings :=
  transports_convert settings (lifts_read (fun _ => rfl) (fun _ => rfl) fun _ _ => rfl)
    lifts_write_unlimited fun _ _ => rfl

theorem run_lines (settings : Settings) (p : Program) (input : ι) (observed : τ) :
    run settings p input (⟨none, #[]⟩ : LineOutput) observed =
      (run settings p input (⟨#[]⟩ : Collected) observed).through
        (Memory.convert id Collected.lines id) := by
  obtain ⟨_, _, _, _, never, -⟩ | same :=
    (transports_lines settings).runFrom p (.start input ⟨#[]⟩ observed)
  · exact never.elim
  · exact same

variable {settings : Settings} {p : Program}

theorem turns_write {ω : Type} [Sink ω] {s : State ι ω τ} {v : String} {rest : List String}
    {output : ω} (fetched : p.instructions[s.ip]? = some .write)
    (allowed : s.completed < settings.maxOps) (top : s.memory.stack.toList = v :: rest)
    (sent : Sink.write s.memory.output v = (none, output)) :
    ∃ after, Turns settings p s after ∧ after.memory.output = output := by
  have first : s.memory.onLists.stack[0]? = some v := congrArg (·[0]?) top
  have wrote : Memory.write v s.memory = .ok () { s.memory with output } := by
    simp only [Memory.write, sent]
  have performed : perform settings p.labels .write s.memory = .ok .next { s.memory with output } :=
    (bind_of_ok (peek_of_some first)).trans (bind_of_ok wrote)
  exact ⟨_, ⟨.write, .next, fetched, allowed, step_of_ok performed .next⟩, rfl⟩

theorem Ends.outputFailed {ω : Type} [Sink ω] {s : State ι ω τ} {o : Outcome ι ω τ}
    {i : Instruction} {index n : Nat} {cause : DeviceFault} (ends : Ends settings p s o)
    (fits : s.memory.onLists.stack.length ≤ settings.maxStack)
    (failed : o.failure? = some (.instructionFailed i index n (.outputFailed cause))) :
    i = .write ∧ index = s.ip ∧ n = s.completed ∧ p.instructions[s.ip]? = some .write ∧
      s.completed < settings.maxOps ∧ ∃ v rest, s.memory.stack.toList = v :: rest ∧
        Sink.write s.memory.output v = (some cause, o.final.memory.output) := by
  obtain ⟨rfl, rfl, fetched, allowed, breaks, went, -⟩ := ends.of_instructionFailed failed
  have left := step_state_onLists settings p i fits
  have result := visit_result settings p i fits
  have reported : (visit settings p i s).result = .error (.outputFailed cause) := breaks.reports
  rw [went] at left
  obtain ⟨rfl, v, rest, top, sent⟩ := ListMachine.act_outputFailed (result.symm.trans reported)
  have output : o.final.memory.output = _ := congrArg ListMachine.Memory.output left
  exact ⟨rfl, rfl, rfl, fetched, allowed, v, rest, top, output ▸ sent⟩

/-- The line of this value is the first one that ends beyond the room, and here a collecting run
writes the value. -/
structure Overruns (settings : Settings) (p : Program) (start : State ι Collected τ) (room : Nat)
    (v : String) (before after : State ι Collected τ) : Prop where
  reached : Reaches settings p start before
  fetched : p.instructions[before.ip]? = some .write
  head : before.memory.stack.toList.head? = some v
  turned : Turns settings p before after
  collected : after.memory.output.values.toList = before.memory.output.values.toList ++ [v]
  fits : (before.memory.output.values.toList.flatMap LineOutput.line).length ≤ room
  beyond : room < (after.memory.output.values.toList.flatMap LineOutput.line).length

theorem run_without_room (settings : Settings) (p : Program) (input : ι) (observed : τ) {room : Nat}
    (full : (run settings p input (⟨some room, #[]⟩ : LineOutput) observed).Meets
      (· = .outputFailed .noRoom)) :
    let collecting := run settings p input (⟨#[]⟩ : Collected) observed
    let limited := run settings p input (⟨some room, #[]⟩ : LineOutput) observed
    ∃ v before after, Overruns settings p (.start input ⟨#[]⟩ observed) room v before after ∧
      after.memory.output.values.toList <+: collecting.final.memory.output.values.toList ∧
      limited.failure? =
        some (.instructionFailed .write before.ip before.completed (.outputFailed .noRoom)) ∧
      limited.final.memory.output.written.toList =
        (after.memory.output.values.toList.flatMap LineOutput.line).take room := by
  intro collecting limited
  obtain ⟨visits, last, completes, ends⟩ :=
    runFrom_completes settings p (.start input (⟨some room, #[]⟩ : LineOutput) observed)
  have empty : (0 : Nat) ≤ settings.maxStack := Nat.zero_le settings.maxStack
  obtain ⟨i, index, n, _, rfl, failed⟩ := full
  obtain ⟨rfl, rfl, rfl, fetched, allowed, v, rest, top, sent⟩ :=
    ends.outputFailed (completes.reaches.stack_le empty) failed
  have start : (⟨some room, #[]⟩ : LineOutput).Within room := ⟨rfl, Nat.zero_le room⟩
  have within := start.extends ((Executes.completed completes).output_extends empty)
  have writes := within.writes v
  rw [sent] at writes
  have lifted : Completes settings p
      ((State.start input ⟨#[]⟩ observed : State ι Collected τ).through
        (Memory.convert id Collected.lines id))
      visits (last.through (Memory.convert id LineOutput.unlimited id)) :=
    (transports_unlimited settings).completes completes
  obtain ⟨before, course, same⟩ := (transports_lines settings).comes_from (fun _ => id) lifted
  have ip : last.ip = before.ip := congrArg State.ip same
  have counter : last.completed = before.completed := congrArg State.completed same
  have stack : last.memory.stack = before.memory.stack := congrArg (fun s => s.memory.stack) same
  have bytes : last.memory.output.written.toList =
    before.memory.output.values.toList.flatMap LineOutput.line :=
    congrArg (fun s => s.memory.output.written.toList) same
  rw [ip] at fetched
  rw [counter] at allowed
  rw [stack] at top
  obtain ⟨after, turned, output⟩ := turns_write fetched allowed top rfl
  have collected :
      after.memory.output.values.toList = before.memory.output.values.toList ++ [v] := by
    rw [output]
    exact Array.toList_push
  have more : Sink.Extends after.memory.output collecting.final.memory.output := by
    have reached : Reaches settings p _ after := course.reaches.tail turned
    have further : collecting = runFrom settings p after := reached.runFrom_eq
    rw [further]
    exact runFrom_output_extends settings p (reached.stack_le empty)
  have text : after.memory.output.values.toList.flatMap LineOutput.line =
      last.memory.output.written.toList ++ LineOutput.line v := by
    rw [collected, List.flatMap_append, List.flatMap_singleton, bytes]
  cases writes with
  | cut beyond _ written =>
    rw [← text] at beyond written
    refine ⟨v, before, after, ⟨course.reaches, fetched, ?_, turned, collected, ?_, beyond⟩,
      Collected.grows more, ?_,
      written⟩
    · rw [top, List.head?_cons]
    · rw [← bytes]
      exact within.size_le
    · rw [← ip, ← counter]
      exact failed

theorem run_within_room (settings : Settings) (p : Program) (input : ι) (observed : τ) {room : Nat}
    (roomy : ¬ (run settings p input (⟨some room, #[]⟩ : LineOutput) observed).Meets
      (· = .outputFailed .noRoom)) :
    let collecting := run settings p input (⟨#[]⟩ : Collected) observed
    let limited := run settings p input (⟨some room, #[]⟩ : LineOutput) observed
    limited.through (Memory.convert id LineOutput.unlimited id) =
        collecting.through (Memory.convert id Collected.lines id) ∧
      limited.final.memory.output.written.size ≤ room := by
  intro collecting limited
  have same := ((transports_unlimited settings).runFrom p
    (.start input (⟨some room, #[]⟩ : LineOutput) observed)).resolve_left roomy
  have start : (⟨some room, #[]⟩ : LineOutput).Within room := ⟨rfl, Nat.zero_le room⟩
  have more : Sink.Extends (⟨some room, #[]⟩ : LineOutput) limited.final.memory.output :=
    runFrom_output_extends settings p (Nat.zero_le settings.maxStack)
  exact ⟨same.symm.trans (run_lines settings p input observed), (start.extends more).size_le⟩

/-- Beside a run that collects what it writes, take the run whose output has room for `room` bytes.
If the lines of all that was collected fit in, both runs end in the same way and at the same place,
and the lines are what was written. If they do not, the second run fails at the `WRITE` of the first
value whose line ends beyond the room, after as many instructions as the first run has completed
there, and what was written are the bytes of the lines that the room has a place for. -/
theorem room_truncates_output (settings : Settings) (p : Program) (input : ι) (observed : τ)
    (room : Nat) :
    let collecting := run settings p input (⟨#[]⟩ : Collected) observed
    let limited := run settings p input (⟨some room, #[]⟩ : LineOutput) observed
    let values := collecting.final.memory.output.values.toList
    let text := values.flatMap LineOutput.line
    (text.length ≤ room →
      limited.failure? = collecting.failure? ∧ limited.final.ip = collecting.final.ip ∧
      limited.final.completed = collecting.final.completed ∧
      limited.final.memory.stack = collecting.final.memory.stack ∧
      limited.final.memory.input = collecting.final.memory.input ∧
      limited.final.memory.observed = collecting.final.memory.observed ∧
      limited.final.memory.output.written.toList = text) ∧
    (room < text.length → ∃ v before after,
      Overruns settings p (.start input ⟨#[]⟩ observed) room v before after ∧
      after.memory.output.values.toList <+: values ∧
      limited.failure? =
        some (.instructionFailed .write before.ip before.completed (.outputFailed .noRoom)) ∧
      limited.final.memory.output.written.toList = text.take room) := by
  intro collecting limited values text
  by_cases full : limited.Meets (· = .outputFailed .noRoom)
  · obtain ⟨v, before, after, overruns, ⟨later, whole⟩, failed, written⟩ :=
      run_without_room settings p input observed full
    have parts : text = after.memory.output.values.toList.flatMap LineOutput.line ++
        later.flatMap LineOutput.line := by
      rw [← List.flatMap_append, whole]
    have beyond := overruns.beyond
    refine ⟨fun fits => ?_, fun _ => ⟨v, before, after, overruns, ⟨later, whole⟩, failed, ?_⟩⟩
    · rw [parts, List.length_append] at fits
      omega
    · rw [written, parts, List.take_append_of_le_length (Nat.le_of_lt beyond)]
  · obtain ⟨same, size⟩ := run_within_room settings p input observed full
    have written : limited.final.memory.output.written.toList = text :=
      congrArg (fun o => o.final.memory.output.written.toList) same
    refine ⟨fun _ => ⟨congrArg (fun o => o.failure?) same, congrArg (fun o => o.final.ip) same,
      congrArg (fun o => o.final.completed) same, congrArg (fun o => o.final.memory.stack) same,
      congrArg (fun o => o.final.memory.input) same,
      congrArg (fun o => o.final.memory.observed) same, written⟩, ?_⟩
    intro beyond
    rw [← written, Array.length_toList] at beyond
    exact absurd size (Nat.not_le.2 beyond)

example :
    let p : Program := ⟨#[.push "é", .write, .write], .empty⟩
    let final (room : Nat) := (run {} p ([] : List String) (⟨some room, #[]⟩ : LineOutput) ()).final
    (final 6).memory.output.written = #[195, 169, 10, 195, 169, 10] ∧
      (final 5).memory.output.written = #[195, 169, 10, 195, 169] ∧
      (final 4).memory.output.written = #[195, 169, 10, 195] := by
  decide +kernel

end StringStack
