import StringStack.Proofs.Machine.Transport

namespace StringStack

variable {ι ω σ τ : Type}

def Memory.seenBy (f : τ → σ) (m : Memory ι ω τ) : Memory ι ω σ :=
  ⟨m.stack, m.input, m.output, f m.observed⟩

def State.seenBy (f : τ → σ) (s : State ι ω τ) : State ι ω σ :=
  ⟨s.memory.seenBy f, s.ip, s.completed⟩

def Outcome.seenBy (f : τ → σ) (o : Outcome ι ω τ) : Outcome ι ω σ := ⟨o.failure?, o.final.seenBy f⟩

variable [Observer σ] [Observer τ]

/-- What the second observer makes of an event is what the first one makes of it, seen through the
map. -/
def Translates (f : τ → σ) : Prop := ∀ t e, f (Observer.observe t e) = Observer.observe (f t) e

variable [Source ι] [Sink ω] {f : τ → σ}

theorem Translates.transports (translates : Translates f) (settings : Settings) :
    Transports (Memory.seenBy f : Memory ι ω τ → Memory ι ω σ) (fun _ => False) settings settings :=
  transports_convert (a := id) (b := id) settings
    (lifts_read (fun _ => rfl) (fun _ => rfl) fun _ _ => rfl)
    (lifts_write (fun _ => rfl) fun _ _ => rfl) translates

theorem Translates.perform (translates : Translates f) (settings : Settings) (labels : LabelTable)
    (i : Instruction) (m : Memory ι ω τ) :
    perform settings labels i (m.seenBy f) =
      resultThrough (Memory.seenBy f) (perform settings labels i m) := by
  obtain ⟨_, _, never, -⟩ | same := (translates.transports settings).perform labels i m
  · exact never.elim
  · exact same

theorem Translates.runFrom (translates : Translates f) (settings : Settings) (p : Program)
    (s : State ι ω τ) :
    runFrom settings p (s.seenBy f) = (runFrom settings p s).seenBy f := by
  obtain ⟨_, _, _, _, never, -⟩ | same := (translates.transports settings).runFrom p s
  · exact never.elim
  · exact same

theorem translates_history (start : τ) :
    Translates fun h : History => h.events.toList.foldl Observer.observe start := by
  intro h e
  simp only [Observer.observe, Array.toList_push, List.foldl_append, List.foldl_cons,
    List.foldl_nil]

theorem run_eq_seenBy_history (settings : Settings) (p : Program) (input : ι) (output : ω)
    (start : τ) :
    run settings p input output start = (run settings p input output (⟨#[]⟩ : History)).seenBy
      fun h => h.events.toList.foldl Observer.observe start :=
  (translates_history start).runFrom settings p (.start input output ⟨#[]⟩)

end StringStack
