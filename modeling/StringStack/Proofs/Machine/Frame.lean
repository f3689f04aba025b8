import StringStack.Proofs.Machine.Transport

/-! What lies below is never touched. Offsets count down from the head, and a limit on the stack
that is raised by what is put below leaves the same room. So only an instruction that does not find
all its operands can tell whether there is something below the stack. -/
namespace StringStack

theorem ListMachine.exchange_append {a b : Nat} {stack : List String} (ha : a < stack.length)
    (hb : b < stack.length) (below : List String) :
    exchange a b (stack ++ below) = exchange a b stack ++ below := by
  have ha' : a < (stack ++ below).length := List.length_append ▸ Nat.lt_add_right below.length ha
  have hb' : b < (stack ++ below).length := List.length_append ▸ Nat.lt_add_right below.length hb
  rw [exchange_eq ha hb, exchange_eq ha' hb', List.getElem_append_left ha,
    List.getElem_append_left hb, List.set_append_left _ _ ha,
    List.set_append_left _ _ (by simpa using hb)]

namespace Stack

/-- The stack with the base under it. -/
def above (s base : Stack) : Stack := ⟨base.items ++ s.items⟩

variable {s base : Stack}

theorem toList_above (s base : Stack) : (s.above base).toList = s.toList ++ base.toList := by
  simp [toList, above]

theorem size_above (s base : Stack) : (s.above base).size = s.size + base.size := by
  simp [size, above, Nat.add_comm]

theorem lt_size_above {k : Nat} (inside : k < s.size) : k < (s.above base).size := by
  rw [size_above]
  exact Nat.lt_add_right base.size inside

theorem push_above (v : String) : (s.above base).push v = (s.push v).above base :=
  congrArg Stack.mk Array.push_append

theorem get_above {k : Nat} (inside : k < s.size) :
    (s.above base).get k (lt_size_above inside) = s.get k inside := by
  have below : k < s.toList.length := s.length_toList ▸ inside
  have there := getElem?_toList (s.above base) k (lt_size_above inside)
  rw [toList_above, List.getElem?_append_left below, getElem?_toList s k inside] at there
  exact (Option.some.inj there).symm

theorem pop_above (filled : 0 < s.size) : (s.above base).pop = s.pop.above base := by
  have top : s.toList ≠ [] := List.length_pos_iff.1 (s.length_toList ▸ filled)
  apply toList_injective
  simp only [toList_pop, toList_above, List.tail_append_of_ne_nil top]

theorem swap_above {a b : Nat} (ha : a < s.size) (hb : b < s.size) :
    (s.above base).swap a b (lt_size_above ha) (lt_size_above hb) =
      (s.swap a b ha hb).above base := by
  have la : a < s.toList.length := s.length_toList ▸ ha
  have lb : b < s.toList.length := s.length_toList ▸ hb
  apply toList_injective
  simp only [toList_swap, toList_above, ListMachine.exchange_append la lb]

end Stack

def Fault.Underflow : Fault → Prop
  | stackUnderflow _ _ => True
  | _ => False

variable {ι ω τ : Type}

def Memory.above (base : Stack) (m : Memory ι ω τ) : Memory ι ω τ :=
  { m with stack := m.stack.above base }

variable [Source ι] [Sink ω] [Observer τ]

theorem transports_above (settings : Settings) (base : Stack) :
    Transports (Memory.above base : Memory ι ω τ → Memory ι ω τ) Fault.Underflow settings
      { settings with maxStack := settings.maxStack + base.size } where
  push := by
    intro v m
    right
    unfold Memory.push
    by_cases room : m.stack.size < settings.maxStack
    · have raised : (m.above base).stack.size < settings.maxStack + base.size := by
        rw [Memory.above, Stack.size_above]
        omega
      rw [if_pos room, if_pos raised]
      simp only [resultThrough, Memory.above, Stack.push_above]
    · have raised : ¬ (m.above base).stack.size < settings.maxStack + base.size := by
        rw [Memory.above, Stack.size_above]
        omega
      rw [if_neg room, if_neg raised]
      rfl
  pop := by
    intro m
    unfold Memory.pop
    by_cases filled : 0 < m.stack.size
    · have filled' : 0 < (m.above base).stack.size := Stack.lt_size_above filled
      right
      rw [dif_pos filled, dif_pos filled']
      simp only [resultThrough, Memory.above, Stack.get_above filled, Stack.pop_above filled]
    · exact .inl ⟨.stackUnderflow 0 0, m, trivial, dif_neg filled⟩
  peek := by
    intro n m
    unfold Memory.peek
    by_cases inside : n < m.stack.size
    · have inside' : n < (m.above base).stack.size := Stack.lt_size_above inside
      right
      rw [dif_pos inside, dif_pos inside']
      simp only [resultThrough, Memory.above, Stack.get_above inside]
    · exact .inl ⟨.stackUnderflow n m.stack.size, m, trivial, dif_neg inside⟩
  swap := by
    intro a b m
    unfold Memory.swap
    by_cases inside : max a b < m.stack.size
    · have inside' : max a b < (m.above base).stack.size := Stack.lt_size_above inside
      have swapped :=
        @Stack.swap_above m.stack base a b (Nat.max_lt.1 inside).1 (Nat.max_lt.1 inside).2
      right
      rw [dif_pos inside, dif_pos inside']
      exact congrArg (fun stack => EStateM.Result.ok () { m with stack }) swapped
    · exact .inl ⟨.stackUnderflow (max a b) m.stack.size, m, trivial, dif_neg inside⟩
  read := lifts_read (fun _ => rfl) (fun _ => rfl) fun _ _ => rfl
  write := lifts_write (fun _ => rfl) fun _ _ => rfl
  observe := fun _ _ => rfl
  maxOps := rfl
  engine := rfl

/-- A run that never misses an operand is the same run above any base, if the limit on the stack is
raised by the size of the base: it ends in the same way and at the same place, reads, writes and is
observed the same, and in the end the base is still there, below what the run alone leaves. -/
theorem runFrom_above_base (settings : Settings) (p : Program) (s : State ι ω τ) (base : Stack)
    (supplied : ¬ (runFrom settings p s).Meets Fault.Underflow) :
    let alone := runFrom settings p s
    let framed := runFrom { settings with maxStack := settings.maxStack + base.size } p
      { s with memory := s.memory.above base }
    framed.failure? = alone.failure? ∧
      framed.final.ip = alone.final.ip ∧ framed.final.completed = alone.final.completed ∧
      framed.final.memory.input = alone.final.memory.input ∧
      framed.final.memory.output = alone.final.memory.output ∧
      framed.final.memory.observed = alone.final.memory.observed ∧
      framed.final.memory.stack.toList = alone.final.memory.stack.toList ++ base.toList := by
  intro alone framed
  have same : framed = alone.through (Memory.above base) :=
    ((transports_above settings base).runFrom p s).resolve_left supplied
  rw [same]
  exact ⟨rfl, rfl, rfl, rfl, rfl, rfl, Stack.toList_above alone.final.memory.stack base⟩

theorem runFrom_above_keep :
    let p : Program := ⟨#[.copy 1, .swap 0 2, .concat, .write, .push "x", .push "y"], .empty⟩
    let alone :=
      runFrom { maxStack := 3 } p
        ⟨⟨⟨#["a", "b"]⟩, ([] : List String), (⟨#[]⟩ : Collected), ()⟩, 0, 0⟩
    let framed :=
      runFrom { maxStack := 4 } p
        ⟨⟨⟨#["keep", "a", "b"]⟩, ([] : List String), (⟨#[]⟩ : Collected), ()⟩, 0, 0⟩
    ¬ alone.Meets Fault.Underflow ∧
      framed.failure? = some (.instructionFailed (.push "y") 5 5 .pushFailed) ∧
      framed.final.memory.output = ⟨#["ab"]⟩ ∧
      framed.final.memory.stack.toList = ["x", "ab", "a", "keep"] := by
  intro p alone framed
  have full : alone.failure? = some (.instructionFailed (.push "y") 5 5 .pushFailed) := rfl
  have supplied : ¬ alone.Meets Fault.Underflow := by
    rintro ⟨i, index, n, fault, kind, failed⟩
    cases full.symm.trans failed
    exact kind
  obtain ⟨failed, -, -, -, output, -, stack⟩ :=
    runFrom_above_base { maxStack := 3 } p _ ⟨#["keep"]⟩ supplied
  exact ⟨supplied, failed.trans full, output, stack⟩

end StringStack
