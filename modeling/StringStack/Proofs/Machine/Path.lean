import Mathlib.Data.List.Chain
import StringStack.Proofs.Machine.InstructionPointer
import StringStack.Proofs.Machine.Observers
import StringStack.Proofs.Machine.Traffic

namespace StringStack

/-- What is heard of the instruction itself, after what is heard of its values. -/
def Event.visit? : Event → Option Visit
  | executed index instruction result => some ⟨index, instruction, result⟩
  | _ => none

def Visit.successor? (v : Visit) : Option Nat :=
  match v.result with
  | .ok .next => some (v.index + 1)
  | .ok (.jump target) => some target
  | .error _ => none

/-- Where the visits lead from this index, if the last of them does not fail. -/
def arrival? (entry : Nat) (visits : List Visit) : Option Nat :=
  match visits.getLast? with
  | none => some entry
  | some last => last.successor?

/-- The visits follow the program from this index on. -/
structure Path (p : Program) (entry : Nat) (visits : List Visit) : Prop where
  starts : ∀ v ∈ visits.head?, v.index = entry
  fetched : ∀ v ∈ visits, p.instructions[v.index]? = some v.instruction
  linked : visits.IsChain fun v w => v.successor? = some w.index

def Reports (p : Program) (result : Except Fault Effect) : Fault → Prop
  | .instructionOutOfRange target => result = .ok (.jump target) ∧ p.size < target
  | fault => result = .error fault

theorem Reports.eq_of_error {p : Program} {fault reported : Fault}
    (reports : Reports p (.error fault) reported) :
    reported = fault := by
  cases reported with
  | instructionOutOfRange target => cases reports.1
  | _ =>
    cases reports
    rfl

theorem visit?_of_mem_traffic {pops : Nat} {pushed? : Option String} {e : Event}
    (member : e ∈ traffic pops pushed?) :
    e.visit? = none := by
  rcases List.mem_append.1 member with popped | pushed
  · rw [List.eq_of_mem_replicate popped]
    rfl
  · obtain ⟨v, -, rfl⟩ := List.mem_map.1 pushed
    rfl

theorem visits_traffic (pops : Nat) (pushed? : Option String) :
    (traffic pops pushed?).filterMap Event.visit? = [] :=
  List.filterMap_eq_nil_iff.2 fun _ member => visit?_of_mem_traffic member

theorem arrival?_concat (entry : Nat) (visits : List Visit) (v : Visit) :
    arrival? entry (visits ++ [v]) = v.successor? := by
  rw [arrival?, List.getLast?_concat]

section Paths

variable {p : Program} {entry : Nat} {visits : List Visit}

theorem path_nil : Path p entry [] := ⟨nofun, nofun, .nil⟩

theorem Path.concat {v : Visit} (path : Path p entry visits)
    (arrived : arrival? entry visits = some v.index)
    (there : p.instructions[v.index]? = some v.instruction) : Path p entry (visits ++ [v]) where
  starts := by
    cases visits with
    | nil =>
      rintro _ ⟨⟩
      exact (Option.some.inj arrived).symm
    | cons first rest => exact path.starts
  fetched := by
    intro w member
    rcases List.mem_append.1 member with earlier | last
    · exact path.fetched w earlier
    · rw [List.mem_singleton.1 last]
      exact there
  linked := by
    apply List.isChain_append.2
    refine ⟨path.linked, .singleton v, ?_⟩
    rintro last ends _ ⟨⟩
    rwa [arrival?, ends] at arrived

theorem Path.ok_of_mem_dropLast {v : Visit} (path : Path p entry visits)
    (member : v ∈ visits.dropLast) :
    ∃ effect, v.result = .ok effect := by
  obtain ⟨k, inside, rfl⟩ := List.getElem_of_mem member
  rw [List.length_dropLast] at inside
  have followed := List.isChain_iff_getElem.1 path.linked k (by omega)
  rw [List.getElem_dropLast]
  cases result : visits[k].result with
  | ok effect => exact ⟨effect, rfl⟩
  | error fault =>
    rw [Visit.successor?, result] at followed
    cases followed

end Paths

variable {ι ω τ : Type} [Source ι] [Sink ω] [Observer τ] {settings : Settings} {p : Program}

section Courses

variable {start s : State ι ω τ} {visits : List Visit}

theorem visit_successor? {i : Instruction} {next : State ι ω τ} {effect : Effect}
    (went : step settings p i s = .moved effect next) :
    (visit settings p i s).successor? = some next.ip := by
  obtain ⟨m, performed, -, -, moves⟩ := step_moved went
  rw [visit, performed]
  generalize next.ip = ip at moves
  cases moves with
  | next => rfl
  | jump _ => rfl

theorem Completes.path (completes : Completes settings p start visits s) :
    Path p start.ip visits ∧ arrival? start.ip visits = some s.ip := by
  induction completes with
  | start => exact ⟨path_nil, rfl⟩
  | next _ fetched _ went ih =>
    obtain ⟨path, arrived⟩ := ih
    exact ⟨path.concat arrived fetched, (arrival?_concat _ _ _).trans (visit_successor? went)⟩

theorem Executes.path (executes : Executes settings p start visits s) : Path p start.ip visits := by
  cases executes with
  | completed completes => exact completes.path.1
  | failed before fetched _ _ => exact before.path.1.concat before.path.2 fetched

theorem Breaks.reports {i : Instruction} {fault : Fault}
    (breaks : Breaks settings p i s.memory fault) :
    Reports p (visit settings p i s).result fault := by
  cases breaks with
  | fault performed =>
    have own := perform_leads settings p.labels i s.memory
    have result : (visit settings p i s).result = .error fault := by
      rw [visit, performed]
      rfl
    rw [performed] at own
    cases fault with
    | instructionOutOfRange target => exact own.elim
    | _ => exact result
  | outOfRange performed beyond =>
    rw [visit, performed]
    exact ⟨rfl, beyond⟩

variable {o : Outcome ι ω τ}

theorem Ends.arrival (ends : Ends settings p s o) (completes : Completes settings p start visits s)
    (inside : start.ip ≤ p.size) (finished : o.failure? = none) :
    arrival? start.ip visits = some p.size ∧ o.final.ip = p.size := by
  have ip : s.ip = p.size :=
    Nat.le_antisymm (completes.reaches.ip_le inside) (ends.size_le finished)
  exact ⟨ip ▸ completes.path.2, ends.final_ip.trans ip⟩

theorem Ends.diagnosed {i : Instruction} {index n : Nat} {fault : Fault}
    (ends : Ends settings p s o) (completes : Completes settings p start visits s)
    (failed : o.failure? = some (.instructionFailed i index n fault)) :
    ∃ result, Executes settings p start (visits ++ [⟨index, i, result⟩]) o.final ∧
    Reports p result fault := by
  obtain ⟨rfl, -, fetched, allowed, breaks, went, -⟩ := ends.of_instructionFailed failed
  exact ⟨_, .failed completes fetched allowed went, breaks.reports⟩

end Courses

theorem Executes.visits_events {input : ι} {output : ω} {visits : List Visit}
    {t : State ι ω History}
    (executes : Executes settings p (.start input output (⟨#[]⟩ : History)) visits t) :
    t.memory.observed.events.toList.filterMap Event.visit? = visits := by
  apply executes.keeps (motive := fun visits t =>
    t.memory.observed.events.toList.filterMap Event.visit? = visits) rfl
  intro visits s i completes heard _ _
  obtain ⟨pops, pushed?, -, -, events⟩ :=
    step_events settings p i (completes.reaches.stack_le (Nat.zero_le settings.maxStack))
  rw [events, List.filterMap_append, List.filterMap_append, heard, visits_traffic]
  rfl

/-- What any observer makes of a run is a fold over its events, and the instructions among them are
a path through the program from its first instruction. Only the last one can have failed. The path
of a run that finishes leads to the end of the program and has the length that was counted; one that
is cut off has the length that the error states; and if an instruction failed, it comes last, at the
index of the error and after as many others as the error states, and was heard with the same fault,
or as the jump out of the program. -/
theorem events_follow_program (settings : Settings) (p : Program) (input : ι) (output : ω)
    (observed : τ) :
    let o := run settings p input output (⟨#[]⟩ : History)
    let events := o.final.memory.observed.events.toList
    let visits := events.filterMap Event.visit?
    run settings p input output observed =
      o.seenBy (fun h => h.events.toList.foldl Observer.observe observed) ∧
    Path p 0 visits ∧ (∀ v ∈ visits.dropLast, ∃ effect, v.result = .ok effect) ∧
    (o.failure? = none →
      visits.length = o.final.completed ∧ arrival? 0 visits = some p.size ∧ o.final.ip = p.size) ∧
    (∀ n, o.failure? = some (.tooLong n) → visits.length = n) ∧
    ∀ i index n fault, o.failure? = some (.instructionFailed i index n fault) →
      visits.length = n + 1 ∧ ∃ before result, visits = before ++ [⟨index, i, result⟩] ∧
        Reports p result fault := by
  intro o events visits
  obtain ⟨completed, last, completes, ends⟩ :=
    runFrom_completes settings p (.start input output (⟨#[]⟩ : History))
  obtain ⟨whole, executes, finished, tooLong, failed⟩ := ends.counted completes rfl
  have heard {others : List Visit}
      (course : Executes settings p (.start input output (⟨#[]⟩ : History)) others o.final) :
        visits = others :=
    course.visits_events
  have path : Path p 0 visits := heard executes ▸ executes.path
  have length : visits.length = whole.length := congrArg List.length (heard executes)
  refine ⟨run_eq_seenBy_history settings p input output observed, path,
    fun v => path.ok_of_mem_dropLast, ?_, ?_, ?_⟩
  · intro ended
    have final : o.final = last := congrArg Outcome.final (ends.of_finished ended).1
    have there : visits = completed := heard (final ▸ .completed completes)
    obtain ⟨arrived, ip⟩ := ends.arrival completes (Nat.zero_le p.size) ended
    exact ⟨length.trans (finished ended), there ▸ arrived, ip⟩
  · intro n ended
    exact length.trans (tooLong n ended)
  · intro i index n fault ended
    obtain ⟨result, course, reports⟩ := ends.diagnosed completes ended
    exact ⟨length.trans (failed i index n fault ended).1, completed, result, heard course, reports⟩

example : (run {} ⟨#[.jump 5], .empty⟩ ([] : List String) (⟨#[]⟩ : Collected)
    (⟨#[]⟩ : History)).final.memory.observed.events.toList.filterMap Event.visit? =
      [⟨0, .jump 5, .ok (.jump 5)⟩] := by rfl

end StringStack
