import StringStack.Proofs.Machine.Output
import StringStack.Proofs.Machine.Path
import StringStack.Proofs.Machine.Transport

namespace StringStack

def Event.isReading : Event → Bool
  | executed _ .read (.ok _) => true
  | _ => false

def readValues : List Event → List String
  | .pushed v :: .executed _ .read (.ok _) :: rest => v :: readValues rest
  | _ :: rest => readValues rest
  | [] => []

theorem readValues_append {new : List Event} (fresh : ∀ e ∈ new.head?, e.isReading = false)
    (old : List Event) :
    readValues (old ++ new) = readValues old ++ readValues new := by
  fun_induction readValues old with
  | case1 v index effect rest ih => exact congrArg (v :: ·) ih
  | case2 e rest unread ih =>
    rw [List.cons_append, readValues, ih]
    intro v index effect later pushed ended
    cases rest with
    | nil =>
      rw [List.nil_append] at ended
      cases fresh (.executed index .read (.ok effect)) (by rw [ended]; rfl)
    | cons next rest =>
      cases ended
      exact unread v index effect rest pushed rfl
  | case3 => rfl

theorem readValues_eq_nil {events : List Event} (quiet : ∀ e ∈ events, e.isReading = false) :
    readValues events = [] := by
  fun_induction readValues events with
  | case1 v index effect rest ih => cases quiet (.executed index .read (.ok effect)) (by simp)
  | case2 e rest unread ih => exact ih fun e member => quiet e (List.mem_cons_of_mem _ member)
  | case3 => rfl

/-- After these events this is left of the input, and each `READ` that went well has put one value
on the stack. -/
structure Accounted (input : List String) (events : List Event) (rest : List String) : Prop where
  order : readValues events ++ rest = input
  count : events.countP Event.isReading = (readValues events).length

section Accounts

variable {input rest : List String} {events : List Event}

theorem accounted_nil (input : List String) : Accounted input [] input := ⟨rfl, rfl⟩

theorem Accounted.quiet {new : List Event} (accounted : Accounted input events rest)
    (quiet : ∀ e ∈ new, e.isReading = false) : Accounted input (events ++ new) rest := by
  have same : readValues (events ++ new) = readValues events := by
    rw [readValues_append (fun e first => quiet e (List.mem_of_mem_head? first)),
      readValues_eq_nil quiet, List.append_nil]
  have none : new.countP Event.isReading = 0 :=
    List.countP_eq_zero.2 fun e member => Bool.not_eq_true _ ▸ quiet e member
  refine ⟨same ▸ accounted.order, ?_⟩
  rw [List.countP_append, none, same]
  exact accounted.count

theorem Accounted.read {v : String} (accounted : Accounted input events (v :: rest)) (index : Nat)
    (effect : Effect) :
    Accounted input (events ++ [.pushed v, .executed index .read (.ok effect)]) rest := by
  have more : readValues (events ++ [.pushed v, .executed index .read (.ok effect)]) =
      readValues events ++ [v] := by
    apply readValues_append
    rintro _ ⟨⟩
    rfl
  refine ⟨?_, ?_⟩
  · rw [more, List.append_assoc]
    exact accounted.order
  · rw [more, List.countP_append, List.length_append, accounted.count]
    rfl

end Accounts

namespace ListMachine

variable {ω τ : Type} [Sink ω] [Observer τ] (limit : Nat) (labels : LabelTable)

inductive Reads (m : Memory (List String) ω τ) :
    Except Fault Effect × Memory (List String) ω τ → Prop where
  | exhausted : m.input = [] → Reads m (.error .inputExhausted, m)
  | value {v : String} {rest : List String} : m.input = v :: rest →
      Reads m (.ok .next, { m with stack := v :: m.stack, input := rest }.hear [.pushed v])
  | full {v : String} {rest : List String} : m.input = v :: rest →
      Reads m (.error .pushFailed, { m with input := rest })

theorem act_read (m : Memory (List String) ω τ) : Reads m (act limit labels .read m) := by
  obtain ⟨stack, input, output, observed⟩ := m
  cases input with
  | nil => exact .exhausted rfl
  | cons v rest =>
    simp only [act, Source.read, push]
    split
    · exact .full rfl
    · exact .value rfl

end ListMachine

variable {ω τ : Type} [Sink ω] [Observer τ] {settings : Settings} {p : Program} {xs : List String}

theorem isReading_traffic {pops : Nat} {pushed? : Option String} {e : Event}
    (member : e ∈ traffic pops pushed?) :
    e.isReading = false := by
  have silent := visit?_of_mem_traffic member
  cases e with
  | executed index i result => cases silent
  | _ => rfl

theorem isReading_executed {index : Nat} {i : Instruction} {result : Except Fault Effect}
    (other : i ≠ .read) :
    (Event.executed index i result).isReading = false := by
  cases i with
  | read => exact absurd rfl other
  | _ => rfl

theorem step_input_events (settings : Settings) (p : Program) (i : Instruction)
    {s : State (List String) ω History} (fits : s.memory.onLists.stack.length ≤ settings.maxStack) :
    let r := ListMachine.act settings.maxStack p.labels i s.memory.onLists
    let after := (step settings p i s).state.memory
    after.input = r.2.input ∧ after.observed.events.toList =
      r.2.observed.events.toList ++ [.executed s.ip i r.1] := by
  intro r after
  have left := step_state_onLists settings p i fits
  rw [visit_result settings p i fits] at left
  have observed : after.observed = Observer.observe r.2.observed (.executed s.ip i r.1) :=
    congrArg ListMachine.Memory.observed left
  refine ⟨congrArg ListMachine.Memory.input left, ?_⟩
  rw [observed]
  exact Array.toList_push

section Step

variable {s : State (List String) ω History}

theorem step_unread {i : Instruction} (other : i ≠ .read)
    (fits : s.memory.onLists.stack.length ≤ settings.maxStack)
    (accounted : Accounted xs s.memory.observed.events.toList s.memory.input) :
    let after := (step settings p i s).state.memory
    Accounted xs after.observed.events.toList after.input := by
  intro after
  obtain ⟨input, -⟩ := step_input_events settings p i fits
  obtain ⟨pops, pushed?, -, -, events⟩ := step_events settings p i fits
  have same : after.input = s.memory.input :=
    input.trans (ListMachine.act_unasked settings.maxStack p.labels other s.memory.onLists).1
  rw [events, same]
  apply accounted.quiet
  intro e member
  rcases List.mem_append.1 member with moved | ended
  · exact isReading_traffic moved
  · rw [List.mem_singleton.1 ended]
    exact isReading_executed other

theorem step_read (fits : s.memory.onLists.stack.length ≤ settings.maxStack)
    (accounted : Accounted xs s.memory.observed.events.toList s.memory.input) :
    let after := (step settings p .read s).state.memory
    Accounted xs after.observed.events.toList after.input ∨
      (visit settings p .read s).result = .error .pushFailed ∧
        ∃ v, Accounted xs after.observed.events.toList (v :: after.input) := by
  intro after
  obtain ⟨input, heard⟩ := step_input_events settings p .read fits
  have result := visit_result settings p .read fits
  have reads := ListMachine.act_read settings.maxStack p.labels s.memory.onLists
  generalize ListMachine.act settings.maxStack p.labels .read s.memory.onLists = r
    at reads input heard result
  cases reads with
  | exhausted none =>
    left
    have same : after.input = s.memory.input := input
    rw [heard, same]
    exact accounted.quiet (List.forall_mem_singleton.2 rfl)
  | @value v rest there =>
    left
    simp only [ListMachine.Memory.hear, events_foldl, List.append_assoc] at heard
    have taken : s.memory.input = v :: after.input := there.trans (congrArg (v :: ·) input.symm)
    rw [taken] at accounted
    rw [heard]
    exact accounted.read s.ip .next
  | @full v rest there =>
    right
    have taken : s.memory.input = v :: after.input := there.trans (congrArg (v :: ·) input.symm)
    rw [taken] at accounted
    rw [heard]
    exact ⟨result, v, accounted.quiet (List.forall_mem_singleton.2 rfl)⟩

theorem step_accounted (i : Instruction) (fits : s.memory.onLists.stack.length ≤ settings.maxStack)
    (accounted : Accounted xs s.memory.observed.events.toList s.memory.input) :
    let after := (step settings p i s).state.memory
    Accounted xs after.observed.events.toList after.input ∨
      i = .read ∧ (visit settings p i s).result = .error .pushFailed ∧
        ∃ v, Accounted xs after.observed.events.toList (v :: after.input) := by
  by_cases reading : i = .read
  · subst reading
    exact (step_read fits accounted).imp_right fun lost => ⟨rfl, lost⟩
  · exact .inl (step_unread reading fits accounted)

end Step

theorem Completes.accounted {start s : State (List String) ω History} {visits : List Visit}
    (completes : Completes settings p start visits s)
    (fits : start.memory.onLists.stack.length ≤ settings.maxStack)
    (accounted : Accounted xs start.memory.observed.events.toList start.memory.input) :
    Accounted xs s.memory.observed.events.toList s.memory.input := by
  induction completes with
  | start => exact accounted
  | @next visits s _ i _ before _ _ went ih =>
    have kept := step_accounted (p := p) i (before.reaches.stack_le fits) ih
    have succeeds := visit_successor? went
    rw [went] at kept
    obtain same | ⟨-, full, -⟩ := kept
    · exact same
    · rw [Visit.successor?, full] at succeeds
      cases succeeds

theorem Ends.accounted {s : State (List String) ω History} {o : Outcome (List String) ω History}
    (ends : Ends settings p s o) (fits : s.memory.onLists.stack.length ≤ settings.maxStack)
    (accounted : Accounted xs s.memory.observed.events.toList s.memory.input) :
    Accounted xs o.final.memory.observed.events.toList o.final.memory.input ∨
      ∃ v index n, o.failure? = some (.instructionFailed .read index n .pushFailed) ∧
        Accounted xs o.final.memory.observed.events.toList (v :: o.final.memory.input) := by
  cases ends with
  | finished _ => exact .inl accounted
  | tooLong _ _ => exact .inl accounted
  | @failed i _ _ _ _ went =>
    obtain ⟨-, -, fault, rfl, breaks⟩ := step_failed went
    have kept := step_accounted (p := p) i fits accounted
    have reports := breaks.reports
    rw [went] at kept
    obtain same | ⟨rfl, full, v, lost⟩ := kept
    · exact .inl same
    · rw [full] at reports
      obtain rfl := reports.eq_of_error
      exact .inr ⟨v, _, _, rfl, lost⟩

theorem Ends.output_of_exhausted {s : State (List String) ω τ} {o : Outcome (List String) ω τ}
    (ends : Ends settings p s o) (fits : s.memory.onLists.stack.length ≤ settings.maxStack)
    (exhausted : o.Meets (· = .inputExhausted)) : o.final.memory.output = s.memory.output := by
  obtain ⟨i, index, n, _, rfl, failed⟩ := exhausted
  obtain ⟨-, -, -, -, breaks, went, -⟩ := ends.of_instructionFailed failed
  have left := step_state_onLists settings p i fits
  have result := visit_result settings p i fits
  have reported : (visit settings p i s).result = .error .inputExhausted := breaks.reports
  rw [went] at left
  rw [reported] at result
  by_cases reading : i = .read
  · subst reading
    have reads := ListMachine.act_read settings.maxStack p.labels s.memory.onLists
    generalize ListMachine.act settings.maxStack p.labels .read s.memory.onLists = r
      at reads left result
    cases reads with
    | exhausted none => exact congrArg ListMachine.Memory.output left
    | value there => cases result
    | full there => cases result
  · exact absurd result.symm
      (ListMachine.act_unasked settings.maxStack p.labels reading s.memory.onLists).2

def Memory.withMore (ys : List String) (m : Memory (List String) ω τ) : Memory (List String) ω τ :=
  { m with input := m.input ++ ys }

theorem transports_withMore (settings : Settings) (ys : List String) :
    Transports (Memory.withMore ys : Memory (List String) ω τ → Memory (List String) ω τ)
      (· = .inputExhausted) settings settings := by
  apply transports_convert (a := (· ++ ys)) (b := id) (c := id) settings _
    (lifts_write (fun _ => rfl) fun _ _ => rfl) fun _ _ => rfl
  rintro ⟨stack, input, output, observed⟩
  cases input with
  | nil => exact .inl ⟨.inputExhausted, _, rfl, rfl⟩
  | cons v rest => exact .inr rfl

theorem run_output_of_exhausted (settings : Settings) (p : Program) (xs ys : List String)
    (output : ω) (observed : τ)
    (exhausted : (run settings p xs output observed).Meets (· = .inputExhausted)) :
    Sink.Extends (run settings p xs output observed).final.memory.output
      (run settings p (xs ++ ys) output observed).final.memory.output := by
  obtain ⟨visits, last, completes, ends⟩ := runFrom_completes settings p (.start xs output observed)
  have fits := completes.reaches.stack_le (Nat.zero_le settings.maxStack)
  have fits' :
      (last.through (Memory.withMore ys)).memory.onLists.stack.length ≤ settings.maxStack :=
    fits
  have written : (run settings p xs output observed).final.memory.output = last.memory.output :=
    ends.output_of_exhausted fits exhausted
  have further : run settings p (xs ++ ys) output observed =
    runFrom settings p (last.through (Memory.withMore ys)) :=
    ((transports_withMore settings ys).completes completes).reaches.runFrom_eq
  rw [written, further]
  exact runFrom_output_extends settings p fits'

/-- The values that successful instructions `READ` put on the stack, one each, are the first values
of the input in their order, and the input keeps the rest, unless the last value that was taken
found no room. A run that is not refused input is the same with any more of it, which is left over;
one that is refused has written the first part of what it writes with more. -/
theorem input_read_in_order (settings : Settings) (p : Program) (xs ys : List String) (output : ω)
    (observed : τ) :
    let o := run settings p xs output (⟨#[]⟩ : History)
    let events := o.final.memory.observed.events.toList
    let short := run settings p xs output observed
    let long := run settings p (xs ++ ys) output observed
    (Accounted xs events o.final.memory.input ∨
      ∃ v index n, o.failure? = some (.instructionFailed .read index n .pushFailed) ∧
        Accounted xs events (v :: o.final.memory.input)) ∧
    (¬ short.Meets (· = .inputExhausted) →
      long.failure? = short.failure? ∧ long.final.ip = short.final.ip ∧
      long.final.completed = short.final.completed ∧
        long.final.memory.stack = short.final.memory.stack ∧
      long.final.memory.output = short.final.memory.output ∧
      long.final.memory.observed = short.final.memory.observed ∧
      long.final.memory.input = short.final.memory.input ++ ys) ∧
    (short.Meets (· = .inputExhausted) →
      Sink.Extends short.final.memory.output long.final.memory.output) ∧
    (∀ out : Collected, (run settings p xs out observed).Meets (· = .inputExhausted) →
      (run settings p xs out observed).final.memory.output.values.toList <+:
        (run settings p (xs ++ ys) out observed).final.memory.output.values.toList) ∧
    ∀ out : LineOutput, (run settings p xs out observed).Meets (· = .inputExhausted) →
      (run settings p xs out observed).final.memory.output.written.toList <+:
        (run settings p (xs ++ ys) out observed).final.memory.output.written.toList := by
  intro o events short long
  refine ⟨?_, ?_, run_output_of_exhausted settings p xs ys output observed, ?_, ?_⟩
  · obtain ⟨visits, last, completes, ends⟩ :=
      runFrom_completes settings p (.start xs output (⟨#[]⟩ : History))
    have fresh : (0 : Nat) ≤ settings.maxStack := Nat.zero_le settings.maxStack
    exact ends.accounted (completes.reaches.stack_le fresh)
      (completes.accounted fresh (accounted_nil xs))
  · intro supplied
    have same : long = short.through (Memory.withMore ys) :=
      ((transports_withMore settings ys).runFrom p (.start xs output observed)).resolve_left
        supplied
    rw [same]
    exact ⟨rfl, rfl, rfl, rfl, rfl, rfl, rfl⟩
  · intro out exhausted
    exact Collected.grows (run_output_of_exhausted settings p xs ys out observed exhausted)
  · intro out exhausted
    exact LineOutput.grows (run_output_of_exhausted settings p xs ys out observed exhausted)

example :
    readValues (run {} ⟨#[.read, .pop, .push "x", .read], .empty⟩ ["a", "b", "c"]
      (⟨#[]⟩ : Collected) (⟨#[]⟩ : History)).final.memory.observed.events.toList = ["a", "b"] := by
  rfl

end StringStack
