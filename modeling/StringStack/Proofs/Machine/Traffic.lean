import Mathlib.Data.List.Infix
import Mathlib.Order.Lattice.Nat
import StringStack.Machine.Statistics
import StringStack.Proofs.Machine.Course

namespace StringStack

variable {ι ω τ : Type}

theorem step_carried [Observer τ] [Source ι] [Sink ω] (settings : Settings) (p : Program)
    (i : Instruction) {s : State ι ω τ} (fits : s.memory.onLists.stack.length ≤ settings.maxStack) :
    ∃ pops pushed?, pops ≤ s.memory.stack.size ∧
      (step settings p i s).state.memory.stack.size =
        s.memory.stack.size - pops + pushed?.toList.length ∧
      (step settings p i s).state.memory.observed =
        Observer.observe ((traffic pops pushed?).foldl Observer.observe s.memory.observed)
          (.executed s.ip i (visit settings p i s).result) := by
  have left := step_state_onLists settings p i fits
  obtain ⟨pops, pushed?, enough, length, observed⟩ :=
    ListMachine.act_carried settings.maxStack p.labels i s.memory.onLists
  refine ⟨pops, pushed?, ?_, ?_, ?_⟩
  · rwa [← Memory.length_stack_onLists]
  · rw [← Memory.length_stack_onLists, ← Memory.length_stack_onLists, left, ← length]
    rfl
  · have heard := congrArg ListMachine.Memory.observed left
    rw [ListMachine.Memory.hear, observed] at heard
    exact heard

theorem events_foldl (h : History) (events : List Event) :
    (events.foldl Observer.observe h).events.toList = h.events.toList ++ events := by
  induction events generalizing h with
  | nil => exact (List.append_nil _).symm
  | cons e events ih =>
    have pushed : (Observer.observe h e).events.toList = h.events.toList ++ [e] := Array.toList_push
    rw [List.foldl_cons, ih, pushed, List.append_assoc]
    rfl

theorem step_events [Source ι] [Sink ω] (settings : Settings) (p : Program) (i : Instruction)
    {s : State ι ω History} (fits : s.memory.onLists.stack.length ≤ settings.maxStack) :
    ∃ pops pushed?, pops ≤ s.memory.stack.size ∧
      (step settings p i s).state.memory.stack.size =
        s.memory.stack.size - pops + pushed?.toList.length ∧
      (step settings p i s).state.memory.observed.events.toList = s.memory.observed.events.toList ++
        (traffic pops pushed? ++ [.executed s.ip i (visit settings p i s).result]) := by
  obtain ⟨pops, pushed?, enough, length, heard⟩ := step_carried settings p i fits
  refine ⟨pops, pushed?, enough, length, ?_⟩
  rw [heard, ← events_foldl, List.foldl_append]
  rfl

namespace Statistics

def count (s : Statistics) (k : Keyword) : Nat := (s.counts.lookup k).getD 0

def total (s : Statistics) : Nat := s.counts.foldr (fun entry sum => entry.2 + sum) 0

theorem lookup_bump (k j : Keyword) (entries : List (Keyword × Nat)) :
    ((bump k entries).lookup j).getD 0 = (entries.lookup j).getD 0 + if k = j then 1 else 0 := by
  induction entries with
  | nil =>
    by_cases same : k = j
    · subst same
      simp [bump]
    · simp [bump, List.lookup_cons, beq_false_of_ne (Ne.symm same), same]
  | cons entry rest ih =>
    obtain ⟨first, n⟩ := entry
    by_cases here : first = k
    · subst here
      by_cases same : first = j
      · subst same
        simp [bump]
      · simp [bump, List.lookup_cons, beq_false_of_ne (Ne.symm same), same]
    · by_cases same : first = j
      · subst same
        simp [bump, here, Ne.symm here]
      · simpa [bump, List.lookup_cons, here, beq_false_of_ne (Ne.symm same)] using ih

theorem sum_bump (k : Keyword) (entries : List (Keyword × Nat)) :
    (bump k entries).foldr (fun entry sum => entry.2 + sum) 0 =
      entries.foldr (fun entry sum => entry.2 + sum) 0 + 1 := by
  induction entries with
  | nil => rfl
  | cons entry rest ih =>
    by_cases here : entry.1 = k
    · simp only [bump, if_pos here, List.foldr_cons]
      omega
    · simp only [bump, if_neg here, List.foldr_cons, ih]
      omega

theorem foldl_popped (s : Statistics) (pops : Nat) :
    (List.replicate pops Event.popped).foldl observe s =
      { s with pops := s.pops + pops, depth := s.depth - pops } := by
  induction pops generalizing s with
  | zero => rfl
  | succ pops ih =>
    rw [List.replicate_succ, List.foldl_cons, ih]
    simp only [observe]
    congr 1
    · omega
    · omega

theorem foldl_traffic (s : Statistics) (pops : Nat) (pushed? : Option String)
    (peak : s.depth ≤ s.maxDepth) :
    (traffic pops pushed?).foldl observe s =
      { s with
        pushes := s.pushes + pushed?.toList.length
        pops := s.pops + pops
        maxDepth := max s.maxDepth (s.depth - pops + pushed?.toList.length)
        depth := s.depth - pops + pushed?.toList.length } := by
  have below : s.depth - pops ≤ s.maxDepth := Nat.le_trans (Nat.sub_le _ _) peak
  rw [traffic, List.foldl_append, foldl_popped]
  cases pushed? with
  | none => simp [below]
  | some v => simp [observe]

end Statistics

variable [Source ι] [Sink ω] [Observer τ]

/-- The lengths that the stack has had at the start of a course and after each of its
instructions. -/
def heights (settings : Settings) (p : Program) (start : State ι ω τ) (visits : List Visit) :
    Set Nat :=
  {n | ∃ sofar t, sofar <+: visits ∧ Executes settings p start sofar t ∧ t.memory.stack.size = n}

/-- The greatest length that the stack has in a run. It need not be looked for within an
instruction, which first takes values off and puts at most one on in the end. -/
def Deepest (settings : Settings) (p : Program) (start : State ι ω τ) (d : Nat) : Prop :=
  IsGreatest {n | ∃ visits t, Executes settings p start visits t ∧ t.memory.stack.size = n} d

section Heights

variable {settings : Settings} {p : Program} {start t : State ι ω τ} {visits : List Visit}

theorem heights_nil : heights settings p start [] = {start.memory.stack.size} := by
  ext n
  constructor
  · rintro ⟨sofar, t, part, executes, rfl⟩
    obtain rfl := List.prefix_nil.1 part
    obtain ⟨-, rfl⟩ := executes.unique (.completed .start) rfl
    rfl
  · rintro rfl
    exact ⟨[], start, List.nil_prefix, .completed .start, rfl⟩

theorem heights_concat {v : Visit} (executes : Executes settings p start (visits ++ [v]) t) :
    heights settings p start (visits ++ [v]) =
      insert t.memory.stack.size (heights settings p start visits) := by
  ext n
  constructor
  · rintro ⟨sofar, s, part, executes', rfl⟩
    rcases List.prefix_concat_iff.1 part with rfl | earlier
    · obtain ⟨-, rfl⟩ := executes'.unique executes rfl
      exact .inl rfl
    · exact .inr ⟨sofar, s, earlier, executes', rfl⟩
  · rintro (rfl | ⟨sofar, s, earlier, executes', rfl⟩)
    · exact ⟨_, t, List.prefix_refl _, executes, rfl⟩
    · exact ⟨sofar, s, earlier.trans (List.prefix_append _ _), executes', rfl⟩

theorem Executes.mem_heights (executes : Executes settings p start visits t) :
    t.memory.stack.size ∈ heights settings p start visits :=
  ⟨visits, t, List.prefix_refl _, executes, rfl⟩

theorem Executes.size_le (executes : Executes settings p start visits t)
    (fits : start.memory.onLists.stack.length ≤ settings.maxStack) :
    t.memory.stack.size ≤ settings.maxStack :=
  t.memory.length_stack_onLists ▸ executes.stack_le fits

theorem exists_deepest (fits : start.memory.onLists.stack.length ≤ settings.maxStack) :
    ∃ d, Deepest settings p start d := by
  have nonempty :
    {n | ∃ visits t, Executes settings p start visits t ∧ t.memory.stack.size = n}.Nonempty :=
    ⟨_, [], start, .completed .start, rfl⟩
  have bounded :
      BddAbove {n | ∃ visits t, Executes settings p start visits t ∧ t.memory.stack.size = n} := by
    refine ⟨settings.maxStack, ?_⟩
    rintro n ⟨visits, t, executes, rfl⟩
    exact executes.size_le fits
  exact ⟨_, Nat.sSup_mem nonempty bounded, fun n member => le_csSup bounded member⟩

end Heights

end StringStack
