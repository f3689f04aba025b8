import StringStack.Proofs.Machine.ListMachine

namespace StringStack

inductive Instruction.Adds : Instruction → Prop where
  | push (v : String) : Adds (.push v)
  | read : Adds .read
  | copy (n : Nat) : Adds (.copy n)

inductive Fault.OfDevice : Fault → Prop where
  | inputExhausted : OfDevice .inputExhausted
  | inputFailed {cause : DeviceFault} : OfDevice (.inputFailed cause)
  | outputFailed {cause : DeviceFault} : OfDevice (.outputFailed cause)

/-- What is heard of an instruction that takes `pops` values off the stack and then may put one on
it. -/
def traffic (pops : Nat) (pushed? : Option String) : List Event :=
  List.replicate pops .popped ++ pushed?.toList.map .pushed

namespace ListMachine

variable {ι ω τ : Type}

def Unasked (m : Memory ι ω τ) (r : Except Fault Effect × Memory ι ω τ) : Prop :=
  r.2.input = m.input ∧ r.1 ≠ .error .inputExhausted

theorem unasked_write [Sink ω] (v : String) (m : Memory ι ω τ) : Unasked m (write v m) := by
  unfold write
  split
  · exact ⟨rfl, nofun⟩
  · exact ⟨rfl, nofun⟩

structure Inner (m : Memory ι ω τ) (r : Except Fault Effect × Memory ι ω τ) : Prop where
  input : r.2.input = m.input
  output : r.2.output = m.output
  fault : ∀ fault, r.1 = .error fault → ¬ fault.OfDevice

theorem inner_jump (labels : LabelTable) (name : String) {m after : Memory ι ω τ}
    (input : after.input = m.input) (output : after.output = m.output) :
    Inner m (jump labels name after) := by
  unfold jump
  split
  · exact ⟨input, output, nofun⟩
  · exact ⟨input, output, nofun⟩

variable [Observer τ]

theorem inner_push (limit : Nat) (v : String) (m : Memory ι ω τ) : Inner m (push limit v m) := by
  unfold push
  split
  · exact ⟨rfl, rfl, nofun⟩
  · exact ⟨rfl, rfl, nofun⟩

/-- Between these memories the stack has changed its length by what has been heard. -/
def Carried (m after : Memory ι ω τ) : Prop :=
  ∃ pops pushed?, pops ≤ m.stack.length ∧
    after.stack.length = m.stack.length - pops + pushed?.toList.length ∧
    after.observed = (traffic pops pushed?).foldl Observer.observe m.observed

theorem carried_push (limit : Nat) (v : String) (m : Memory ι ω τ) :
    Carried m (push limit v m).2 := by
  unfold push
  split
  · exact ⟨0, none, Nat.zero_le _, rfl, rfl⟩
  · exact ⟨0, some v, Nat.zero_le _, rfl, rfl⟩

/-- What comes of an instruction to which the limit on the stack does not matter. -/
structure Free [Sink ω] (m : Memory ι ω τ) (r : Except Fault Effect × Memory ι ω τ) : Prop where
  carried : Carried m r.2
  length_le : r.2.stack.length ≤ m.stack.length
  output : r.2.output = m.output ∨ ∃ v, r.2.output = (Sink.write m.output v).2
  room : r.1 ≠ .error .pushFailed

variable [Sink ω] {m : Memory ι ω τ}

theorem free_of_same {after : Memory ι ω τ} {result : Except Fault Effect}
    (length : after.stack.length = m.stack.length) (observed : after.observed = m.observed)
    (output : after.output = m.output) (room : result ≠ .error .pushFailed) :
    Free m (result, after) :=
  ⟨⟨0, none, Nat.zero_le _, length, observed⟩, Nat.le_of_eq length, .inl output, room⟩

theorem free_of_stack (taken : List String) {rest : List String} (pushed? : Option String)
    {result : Except Fault Effect} (top : m.stack = taken ++ rest)
    (fewer : pushed?.toList.length ≤ taken.length) (room : result ≠ .error .pushFailed) :
    Free m (result,
      { m with stack := pushed?.toList ++ rest }.hear (traffic taken.length pushed?)) := by
  have whole : m.stack.length = taken.length + rest.length := by rw [top, List.length_append]
  refine ⟨⟨taken.length, pushed?, ?_, ?_, rfl⟩, ?_, .inl rfl, room⟩
  · omega
  · simp only [Memory.hear, List.length_append]
    omega
  · simp only [Memory.hear, List.length_append]
    omega

theorem free_short (m : Memory ι ω τ) : Free m (short m) := by
  have room : (.error (.stackUnderflow 0 0) : Except Fault Effect) ≠ .error .pushFailed := nofun
  have lost : Free m (.error (.stackUnderflow 0 0),
      { m with stack := [] }.hear (traffic m.stack.length none)) :=
    free_of_stack m.stack none (List.append_nil _).symm (Nat.zero_le _) room
  simpa only [short, traffic, List.map_const', Option.toList_none, List.map_nil,
    List.append_nil] using lost

theorem free_write {v : String} : Free m (write v m) := by
  unfold write
  split
  · next sent =>
      exact ⟨⟨0, none, Nat.zero_le _, rfl, rfl⟩, Nat.le_refl _, .inr ⟨v, by rw [sent]⟩, nofun⟩
  · next sent =>
      exact ⟨⟨0, none, Nat.zero_le _, rfl, rfl⟩, Nat.le_refl _, .inr ⟨v, by rw [sent]⟩, nofun⟩

theorem free_jump {labels : LabelTable} {name : String} {after : Memory ι ω τ}
    (taken : Free m (.ok .next, after)) : Free m (jump labels name after) := by
  unfold jump
  split
  · exact ⟨taken.carried, taken.length_le, taken.output, nofun⟩
  · exact ⟨taken.carried, taken.length_le, taken.output, nofun⟩

variable [Source ι]

/-- An instruction adds a value, whatever the limit, or the limit does not matter to it. -/
theorem act_cases (labels : LabelTable) (i : Instruction) (m : Memory ι ω τ) :
    (i.Adds ∧ ∃ v input, ∀ limit, act limit labels i m = push limit v { m with input }) ∨
      ∀ limit, (∀ limit', act limit' labels i m = act limit labels i m) ∧
      Free m (act limit labels i m) := by
  cases i with
  | push v => exact .inl ⟨.push v, v, m.input, fun _ => rfl⟩
  | read =>
    simp only [act]
    split
    · next v input _ => exact .inl ⟨.read, v, input, fun _ => rfl⟩
    · exact .inr fun _ => ⟨fun _ => rfl, free_of_same rfl rfl rfl nofun⟩
    · exact .inr fun _ => ⟨fun _ => rfl, free_of_same rfl rfl rfl nofun⟩
  | copy n =>
    simp only [act]
    split
    · next v _ => exact .inl ⟨.copy n, v, m.input, fun _ => rfl⟩
    · exact .inr fun _ => ⟨fun _ => rfl, free_of_same rfl rfl rfl nofun⟩
  | mark => exact .inr fun _ => ⟨fun _ => rfl, free_of_same rfl rfl rfl nofun⟩
  | jump target => exact .inr fun _ => ⟨fun _ => rfl, free_of_same rfl rfl rfl nofun⟩
  | swap a b =>
    refine .inr fun _ => ⟨fun _ => rfl, ?_⟩
    simp only [act]
    split
    · next inside =>
      have ha : a < m.stack.length := by omega
      have hb : b < m.stack.length := by omega
      exact free_of_same (exchange_perm ha hb).length_eq rfl rfl nofun
    · exact free_of_same rfl rfl rfl nofun
  | pop =>
    refine .inr fun _ => ⟨fun _ => rfl, ?_⟩
    simp only [act]
    split
    · next v rest top => exact free_of_stack [v] none top (Nat.zero_le _) nofun
    · exact free_short m
  | write =>
    refine .inr fun _ => ⟨fun _ => rfl, ?_⟩
    simp only [act]
    split
    · exact free_write
    · exact free_short m
  | jumpDynamic =>
    refine .inr fun _ => ⟨fun _ => rfl, ?_⟩
    simp only [act]
    split
    · next name rest top => exact free_jump (free_of_stack [name] none top (Nat.zero_le _) nofun)
    · exact free_short m
  | concat =>
    refine .inr fun _ => ⟨fun _ => rfl, ?_⟩
    simp only [act]
    split
    · next head below rest top =>
        exact free_of_stack [head, below] (some (head ++ below)) top (Nat.le_succ 1) nofun
    · exact free_short m
  | replaceOne =>
    refine .inr fun _ => ⟨fun _ => rfl, ?_⟩
    simp only [act]
    split
    · next text pattern replacement otherwise rest top =>
      let taken := [text, pattern, replacement, otherwise]
      split
      · next replaced _ => exact free_of_stack taken (some replaced) top (Nat.le_add_left 1 3) nofun
      · exact free_jump (free_of_stack taken none top (Nat.zero_le _) nofun)
    · exact free_short m

theorem act_length_le {limit : Nat} (labels : LabelTable) (i : Instruction) {m : Memory ι ω τ}
    (fits : m.stack.length ≤ limit) : (act limit labels i m).2.stack.length ≤ limit := by
  obtain ⟨-, v, input, adds⟩ | free := act_cases labels i m
  · rw [adds]
    exact push_length_le v fits
  · exact Nat.le_trans (free limit).2.length_le fits

theorem act_output (limit : Nat) (labels : LabelTable) (i : Instruction) (m : Memory ι ω τ) :
    (act limit labels i m).2.output = m.output ∨
    ∃ v, (act limit labels i m).2.output = (Sink.write m.output v).2 := by
  obtain ⟨-, v, input, adds⟩ | free := act_cases labels i m
  · rw [adds]
    exact .inl (push_output limit v _)
  · exact (free limit).2.output

theorem act_carried (limit : Nat) (labels : LabelTable) (i : Instruction) (m : Memory ι ω τ) :
    Carried m (act limit labels i m).2 := by
  obtain ⟨-, v, input, adds⟩ | free := act_cases labels i m
  · rw [adds]
    exact carried_push limit v { m with input }
  · exact (free limit).2.carried

theorem act_inner (limit : Nat) (labels : LabelTable) {i : Instruction} (unread : i ≠ .read)
    (unwritten : i ≠ .write) (m : Memory ι ω τ) : Inner m (act limit labels i m) := by
  cases i with
  | read => exact absurd rfl unread
  | write => exact absurd rfl unwritten
  | push v => exact inner_push limit v m
  | mark => exact ⟨rfl, rfl, nofun⟩
  | jump target => exact ⟨rfl, rfl, nofun⟩
  | pop =>
    simp only [act]
    split
    · exact ⟨rfl, rfl, nofun⟩
    · exact ⟨rfl, rfl, nofun⟩
  | swap a b =>
    simp only [act]
    split
    · exact ⟨rfl, rfl, nofun⟩
    · exact ⟨rfl, rfl, nofun⟩
  | copy n =>
    simp only [act]
    split
    · exact inner_push limit _ m
    · exact ⟨rfl, rfl, nofun⟩
  | jumpDynamic =>
    simp only [act]
    split
    · exact inner_jump labels _ rfl rfl
    · exact ⟨rfl, rfl, nofun⟩
  | concat =>
    simp only [act]
    split
    · exact ⟨rfl, rfl, nofun⟩
    · exact ⟨rfl, rfl, nofun⟩
  | replaceOne =>
    simp only [act]
    split
    · split
      · exact ⟨rfl, rfl, nofun⟩
      · exact inner_jump labels _ rfl rfl
    · exact ⟨rfl, rfl, nofun⟩

theorem act_unasked (limit : Nat) (labels : LabelTable) {i : Instruction} (other : i ≠ .read)
    (m : Memory ι ω τ) :
    Unasked m (act limit labels i m) := by
  by_cases writing : i = .write
  · subst writing
    simp only [act]
    split
    · exact unasked_write _ m
    · exact ⟨rfl, nofun⟩
  · have inner := act_inner limit labels other writing m
    exact ⟨inner.input, fun exhausted => inner.fault _ exhausted .inputExhausted⟩

theorem act_outputFailed {limit : Nat} {labels : LabelTable} {i : Instruction} {m : Memory ι ω τ}
    {cause : DeviceFault} (failed : (act limit labels i m).1 = .error (.outputFailed cause)) :
    i = .write ∧ ∃ v rest, m.stack = v :: rest ∧
      Sink.write m.output v = (some cause, (act limit labels i m).2.output) := by
  by_cases writing : i = .write
  · refine ⟨writing, ?_⟩
    subst writing
    unfold act at failed ⊢
    cases top : m.stack with
    | nil =>
      rw [top] at failed
      cases failed
    | cons v rest =>
      rw [top] at failed
      refine ⟨v, rest, rfl, ?_⟩
      simp only [write] at failed ⊢
      split at failed
      · cases failed
      · next sent =>
        cases failed
        rw [sent]
  · by_cases reading : i = .read
    · subst reading
      simp only [act] at failed
      split at failed
      · next v input _ =>
          exact absurd .outputFailed ((inner_push limit v { m with input }).fault _ failed)
      · cases failed
      · cases failed
    · exact absurd .outputFailed ((act_inner limit labels reading writing m).fault _ failed)

end ListMachine
end StringStack
