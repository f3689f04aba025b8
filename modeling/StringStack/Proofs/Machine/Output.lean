import StringStack.Proofs.Machine.Course

namespace StringStack

variable {ι ω τ β : Type}

namespace Sink

variable [Sink ω] {a b c : ω}

/-- The second is what the first becomes when these values, or parts of them, are written to it. -/
def Extends (a b : ω) : Prop :=
  ∃ values : List String, b = values.foldl (fun out v => (Sink.write out v).2) a

theorem Extends.refl (a : ω) : Extends a a := ⟨[], rfl⟩

theorem Extends.trans (first : Extends a b) (second : Extends b c) : Extends a c := by
  obtain ⟨early, rfl⟩ := first
  obtain ⟨late, rfl⟩ := second
  exact ⟨early ++ late, List.foldl_append.symm⟩

theorem extends_write (a : ω) (v : String) : Extends a (Sink.write a v).2 := ⟨[v], rfl⟩

theorem Extends.grows {written : ω → List β}
    (adds : ∀ out v, written out <+: written (Sink.write out v).2) (more : Extends a b) :
    written a <+: written b := by
  obtain ⟨values, rfl⟩ := more
  induction values generalizing a with
  | nil => exact List.prefix_refl _
  | cons v values ih => exact (adds a v).trans ih

end Sink

theorem Collected.grows {a b : Collected} (more : Sink.Extends a b) :
    a.values.toList <+: b.values.toList := by
  apply more.grows
  intro out v
  have pushed : (Sink.write out v).2.values.toList = out.values.toList ++ [v] := Array.toList_push
  exact ⟨[v], pushed.symm⟩

theorem LineOutput.grows {a b : LineOutput} (more : Sink.Extends a b) :
    a.written.toList <+: b.written.toList := by
  apply more.grows
  intro out v
  have added : ∃ bytes : List UInt8, (LineOutput.write out v).2.written = out.written ++ bytes := by
    unfold LineOutput.write
    cases out.capacity with
    | none => exact ⟨_, rfl⟩
    | some n =>
      simp only
      split
      · exact ⟨_, rfl⟩
      · exact ⟨_, rfl⟩
  obtain ⟨bytes, added⟩ := added
  have whole : (Sink.write out v).2.written.toList = out.written.toList ++ bytes :=
    (congrArg Array.toList added).trans Array.toList_appendList
  exact ⟨bytes, whole.symm⟩

variable [Source ι] [Sink ω] [Observer τ] {settings : Settings} {p : Program}
  {start s : State ι ω τ}
  {visits : List Visit}

theorem step_output_extends (settings : Settings) (p : Program) (i : Instruction) {s : State ι ω τ}
    (fits : s.memory.onLists.stack.length ≤ settings.maxStack) :
    Sink.Extends s.memory.output (step settings p i s).state.memory.output := by
  have output : (step settings p i s).state.memory.output =
      (ListMachine.act settings.maxStack p.labels i s.memory.onLists).2.output :=
    congrArg ListMachine.Memory.output (step_state_onLists settings p i fits)
  rw [output]
  rcases ListMachine.act_output settings.maxStack p.labels i s.memory.onLists with same | ⟨v, sent⟩
  · rw [same]
    exact .refl _
  · rw [sent]
    exact Sink.extends_write _ v

theorem Executes.output_extends (executes : Executes settings p start visits s)
    (fits : start.memory.onLists.stack.length ≤ settings.maxStack) :
    Sink.Extends start.memory.output s.memory.output := by
  apply executes.keeps (motive := fun _ s => Sink.Extends start.memory.output s.memory.output)
    (.refl _)
  intro visits s i completes more _ _
  exact more.trans (step_output_extends settings p i (completes.reaches.stack_le fits))

theorem runFrom_output_extends (settings : Settings) (p : Program) {start : State ι ω τ}
    (fits : start.memory.onLists.stack.length ≤ settings.maxStack) :
    Sink.Extends start.memory.output (runFrom settings p start).final.memory.output := by
  obtain ⟨visits, last, completes, ends⟩ := runFrom_completes settings p start
  obtain ⟨whole, executes, -⟩ := ends.executes completes
  exact executes.output_extends fits

end StringStack
