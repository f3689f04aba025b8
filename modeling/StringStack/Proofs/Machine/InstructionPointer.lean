import StringStack.Proofs.Machine.Reaching
import StringStack.Proofs.Program.Targets

/-! Where the instruction pointer can be. A step goes to the next instruction or checks its target,
so no run of any program leaves the range; that the check never fails in a loaded program is a
matter of where its targets come from. An instruction takes them from itself or from the label
table, whatever names the program has built by then, and loading puts a mark at all of them. -/
namespace StringStack

variable {ι ω τ α β : Type}

def Fault.OfInstruction : Fault → Prop
  | instructionOutOfRange _ => False
  | _ => True

def Answers (good : α → Prop) : EStateM.Result Fault (Memory ι ω τ) α → Prop
  | .ok a _ => good a
  | .error fault _ => fault.OfInstruction

def Ensures (good : α → Prop) (x : Action ι ω τ α) : Prop := ∀ m, Answers good (x m)

theorem Ensures.bind {good : α → Prop} {better : β → Prop} {x : Action ι ω τ α}
    {f : α → Action ι ω τ β} (first : Ensures good x)
    (second : ∀ a, good a → Ensures better (f a)) : Ensures better (x >>= f) := by
  intro m
  have here := first m
  cases result : x m with
  | error fault last =>
    rw [result] at here
    rw [bind_of_error result]
    exact here
  | ok a next =>
    rw [result] at here
    rw [bind_of_ok result]
    exact second a here next

def Leads (labels : LabelTable) (i : Instruction) : Effect → Prop
  | .next => True
  | .jump target => i = .jump target ∨ ∃ name, labels.get? name = some target

theorem Ensures.next {labels : LabelTable} {i : Instruction} {x : Action ι ω τ α}
    (any : Ensures (fun _ => True) x) :
    Ensures (Leads labels i) (do let _ ← x; return .next) :=
  any.bind fun _ _ _ => trivial

theorem jumpTo_leads (labels : LabelTable) (i : Instruction) (name : String) :
    Ensures (Leads labels i) (jumpTo labels name : Action ι ω τ Effect) := by
  cases found : labels.get? name with
  | none =>
    simp only [jumpTo, found]
    exact fun _ => trivial
  | some target =>
    simp only [jumpTo, found]
    exact fun _ => .inr ⟨name, found⟩

section Actions

theorem ensures_peek (n : Nat) : Ensures (fun _ => True) (Memory.peek n : Action ι ω τ String) := by
  intro m
  unfold Memory.peek
  split
  · trivial
  · trivial

theorem ensures_swap (a b : Nat) :
    Ensures (fun _ => True) (Memory.swap a b : Action ι ω τ Unit) := by
  intro m
  unfold Memory.swap
  split
  · trivial
  · trivial

theorem ensures_read [Source ι] : Ensures (fun _ => True) (Memory.read : Action ι ω τ String) := by
  intro m
  unfold Memory.read
  split
  · trivial
  · trivial
  · trivial

theorem ensures_write [Sink ω] (v : String) :
    Ensures (fun _ => True) (Memory.write v : Action ι ω τ Unit) := by
  intro m
  unfold Memory.write
  split
  · trivial
  · trivial

variable [Observer τ]

theorem ensures_push (limit : Nat) (v : String) :
    Ensures (fun _ => True) (Memory.push limit v : Action ι ω τ Unit) := by
  intro m
  unfold Memory.push
  split
  · trivial
  · trivial

theorem ensures_pop : Ensures (fun _ => True) (Memory.pop : Action ι ω τ String) := by
  intro m
  unfold Memory.pop
  split
  · trivial
  · trivial

end Actions

variable [Source ι] [Sink ω] [Observer τ] {settings : Settings} {p : Program}

theorem perform_leads (settings : Settings) (labels : LabelTable) (i : Instruction) :
    Ensures (Leads labels i) (perform settings labels i : Action ι ω τ Effect) := by
  cases i with
  | push v => exact (ensures_push settings.maxStack v).next
  | pop => exact ensures_pop.next
  | write => exact (ensures_peek 0).bind fun v _ => (ensures_write v).next
  | read => exact ensures_read.bind fun v _ => (ensures_push settings.maxStack v).next
  | swap a b => exact (ensures_swap a b).next
  | copy n => exact (ensures_peek n).bind fun v _ => (ensures_push settings.maxStack v).next
  | mark => exact fun _ => trivial
  | jump target => exact fun _ => .inl rfl
  | jumpDynamic => exact ensures_pop.bind fun name _ => jumpTo_leads labels .jumpDynamic name
  | concat =>
    apply ensures_pop.bind
    intro head _
    apply ensures_pop.bind
    intro below _
    exact (ensures_push settings.maxStack (head ++ below)).next
  | replaceOne =>
    apply ensures_pop.bind
    intro text _
    apply ensures_pop.bind
    intro pattern _
    apply ensures_pop.bind
    intro replacement _
    apply ensures_pop.bind
    intro otherwise _
    cases settings.engine.find pattern text with
    | none => exact jumpTo_leads labels .replaceOne otherwise
    | some offset => exact (ensures_push settings.maxStack _).next

theorem Program.Linked.target_lt {index target : Nat} {i : Instruction} (linked : p.Linked)
    (there : p.instructions[index]? = some i) (leads : Leads p.labels i (.jump target)) :
    target < p.size := by
  rcases leads with rfl | ⟨name, found⟩
  · exact lt_size_of_getElem? (linked.jumps index target there)
  · exact lt_size_of_getElem? (linked.labels name target found)

theorem Breaks.ofInstruction {index : Nat} {i : Instruction} {m : Memory ι ω τ} {fault : Fault}
    (breaks : Breaks settings p i m fault) (linked : p.Linked)
    (there : p.instructions[index]? = some i) :
    fault.OfInstruction := by
  have performed := perform_leads settings p.labels i m
  cases breaks with
  | fault result => rwa [result] at performed
  | outOfRange result beyond =>
    rw [result] at performed
    exact absurd (linked.target_lt there performed) (Nat.not_lt.2 (Nat.le_of_lt beyond))

theorem Moves.ip_le {ip next : Nat} {i : Instruction} {effect : Effect}
    (moves : Moves p ip effect next) (there : p.instructions[ip]? = some i) : next ≤ p.size := by
  cases moves with
  | next => exact Program.lt_size_of_getElem? there
  | jump inside => exact inside

theorem Turns.ip_le {s next : State ι ω τ} (turned : Turns settings p s next) :
    next.ip ≤ p.size := by
  obtain ⟨i, effect, there, -, went⟩ := turned
  obtain ⟨m, -, -, -, moves⟩ := step_moved went
  exact moves.ip_le there

theorem Reaches.ip_le {s last : State ι ω τ} (reached : Reaches settings p s last)
    (inside : s.ip ≤ p.size) :
    last.ip ≤ p.size :=
  reached.keeps inside fun _ _ turned _ => turned.ip_le

theorem Ends.final_ip {s : State ι ω τ} {o : Outcome ι ω τ} (ends : Ends settings p s o) :
    o.final.ip = s.ip := by
  cases ends with
  | finished _ => rfl
  | tooLong _ _ => rfl
  | failed _ _ went => exact (step_failed went).1

theorem Ends.size_le {s : State ι ω τ} {o : Outcome ι ω τ} (ends : Ends settings p s o)
    (finished : o.failure? = none) : p.size ≤ s.ip := by
  cases ends with
  | finished beyond => exact Array.getElem?_eq_none_iff.1 beyond
  | tooLong _ _ => cases finished
  | failed _ _ _ => cases finished

theorem Ends.ofInstruction {s : State ι ω τ} {o : Outcome ι ω τ} {i : Instruction}
    {index completed : Nat} {fault : Fault} (ends : Ends settings p s o) (linked : p.Linked)
    (failed : o.failure? = some (.instructionFailed i index completed fault)) :
    fault.OfInstruction := by
  cases ends with
  | finished _ => cases failed
  | tooLong _ _ => cases failed
  | failed there _ went =>
    obtain ⟨-, -, fault, rfl, breaks⟩ := step_failed went
    cases failed
    exact breaks.ofInstruction linked there

/-- No run takes the instruction pointer out of the program, and one that finishes has it at the
end. In a loaded program all fixed targets and all labels are at marks, and no run fails for the
range of a target. -/
theorem instruction_pointer_inside (settings : Settings) (p : Program) (input : ι) (output : ω)
    (observed : τ) :
    (∀ s, Reaches settings p (.start input output observed) s → s.ip ≤ p.size) ∧
    (run settings p input output observed).final.ip ≤ p.size ∧
    ((run settings p input output observed).failure? = none →
      (run settings p input output observed).final.ip = p.size) ∧
    ∀ lines, Program.load lines = .ok p →
      (∀ (i target : Nat), p.instructions[i]? = some (.jump target) →
        target < p.size ∧ p.instructions[target]? = some .mark) ∧
      (∀ name index, p.labels.get? name = some index →
        index < p.size ∧ p.instructions[index]? = some .mark) ∧
      ∀ i index completed target, (run settings p input output observed).failure? ≠
        some (.instructionFailed i index completed (.instructionOutOfRange target)) := by
  have inside : ∀ s, Reaches settings p (.start input output observed) s → s.ip ≤ p.size :=
    fun s reached => reached.ip_le (Nat.zero_le p.size)
  obtain ⟨last, reached, ends⟩ := runFrom_ends settings p (.start input output observed)
  have kept : (run settings p input output observed).final.ip = last.ip := ends.final_ip
  rw [kept]
  refine ⟨inside, inside last reached, fun finished => ?_, fun lines loaded => ?_⟩
  · exact Nat.le_antisymm (inside last reached) (ends.size_le finished)
  · have linked := Program.linked_of_load loaded
    refine ⟨fun i target there => ?_, fun name index found => ?_,
      fun i index completed target failed => ?_⟩
    · have mark := linked.jumps i target there
      exact ⟨Program.lt_size_of_getElem? mark, mark⟩
    · have mark := linked.labels name index found
      exact ⟨Program.lt_size_of_getElem? mark, mark⟩
    · exact ends.ofInstruction linked failed

theorem instruction_pointer_inside_built_name :
    let p : Program := ⟨#[.push "o", .push "l", .concat, .jumpDynamic, .mark, .jump 4],
      ⟨[("lo", 4)], List.pairwise_singleton _ _⟩⟩
    Program.load ["PUSH 'o'", "PUSH 'l'", "CONCAT", "JMP", "LABEL lo", "JMP lo"] = .ok p ∧
      (run { maxOps := 9 } p ([] : List String) (⟨#[]⟩ : Collected) ()).final.ip ≤ p.size ∧
      (4 < p.size ∧ p.instructions[4]? = some .mark) ∧
      (run { maxOps := 9 } p ([] : List String) (⟨#[]⟩ : Collected) ()).failure? ≠
        some (.instructionFailed .jumpDynamic 3 3 (.instructionOutOfRange 4)) := by
  intro p
  have loaded :
      Program.load ["PUSH 'o'", "PUSH 'l'", "CONCAT", "JMP", "LABEL lo", "JMP lo"] = .ok p := by
    decide +kernel
  obtain ⟨-, inside, -, linked⟩ :=
    instruction_pointer_inside { maxOps := 9 } p ([] : List String) (⟨#[]⟩ : Collected) ()
  obtain ⟨jumps, -, never⟩ := linked _ loaded
  exact ⟨loaded, inside, jumps 5 4 rfl, never .jumpDynamic 3 3 4⟩

example : (run {} ⟨#[.jump 5], .empty⟩ ([] : List String) (⟨#[]⟩ : Collected) ()).failure? =
    some (.instructionFailed (.jump 5) 0 0 (.instructionOutOfRange 5)) := by rfl

end StringStack
