import StringStack.Proofs.Machine.Acting

namespace StringStack

variable {ι ω τ α β : Type}

def Memory.onLists (m : Memory ι ω τ) : ListMachine.Memory ι ω τ :=
  ⟨m.stack.toList, m.input, m.output, m.observed⟩

def State.onLists (s : State ι ω τ) : ListMachine.State ι ω τ :=
  ⟨s.memory.onLists, s.ip, s.completed⟩

def Outcome.onLists (o : Outcome ι ω τ) : ListMachine.Outcome ι ω τ := ⟨o.failure?, o.final.onLists⟩

def Progress.onLists : Progress ι ω τ → Option RunError × ListMachine.State ι ω τ
  | .moved _ s => (none, s.onLists)
  | .failed error s => (some error, s.onLists)

/-- The answer of an action and what it leaves behind. -/
def reply :
    EStateM.Result Fault (Memory ι ω τ) Effect → Except Fault Effect × ListMachine.Memory ι ω τ
  | .ok effect m => (.ok effect, m.onLists)
  | .error fault m => (.error fault, m.onLists)

theorem Stack.toList_injective {s t : Stack} (same : s.toList = t.toList) : s = t := by
  obtain ⟨⟨a⟩⟩ := s
  obtain ⟨⟨b⟩⟩ := t
  cases List.reverse_inj.1 same
  rfl

theorem reply_injective {a b : EStateM.Result Fault (Memory ι ω τ) Effect}
    (same : reply a = reply b) : a = b := by
  have memory {m n : Memory ι ω τ} (same : m.onLists = n.onLists) : m = n := by
    obtain ⟨s, input, output, observed⟩ := m
    obtain ⟨t, _, _, _⟩ := n
    cases Stack.toList_injective (congrArg ListMachine.Memory.stack same)
    cases same
    rfl
  cases a with
  | ok effect m =>
    cases b with
    | ok effect' n =>
      obtain ⟨effects, memories⟩ := Prod.mk.inj same
      cases effects
      rw [memory memories]
    | error fault n => cases (Prod.mk.inj same).1
  | error fault m =>
    cases b with
    | ok effect n => cases (Prod.mk.inj same).1
    | error fault' n =>
      obtain ⟨faults, memories⟩ := Prod.mk.inj same
      cases faults
      rw [memory memories]

theorem Memory.length_stack_onLists (m : Memory ι ω τ) : m.onLists.stack.length = m.stack.size :=
  m.stack.length_toList

section Sequences

variable {x : Action ι ω τ α} {f : α → Action ι ω τ β} {m : Memory ι ω τ}

theorem bind_of_ok {a : α} {next : Memory ι ω τ} (done : x m = .ok a next) :
    (x >>= f) m = f a next := by
  simp only [bind, EStateM.bind, done]

theorem bind_of_error {fault : Fault} {last : Memory ι ω τ} (broken : x m = .error fault last) :
    (x >>= f) m = .error fault last := by
  simp only [bind, EStateM.bind, broken]

end Sequences

theorem Stack.getElem?_toList_eq (s : Stack) {k : Nat} (inside : k < s.size) :
    s.toList[k]? = s.items[s.size - 1 - k]? := by
  rw [getElem?_toList s k inside, get]
  exact (Array.getElem?_eq_getElem _).symm

theorem Stack.toList_swap (s : Stack) {a b : Nat} (ha : a < s.size) (hb : b < s.size) :
    (s.swap a b ha hb).toList = ListMachine.exchange a b s.toList := by
  have la : a < s.toList.length := s.length_toList ▸ ha
  have lb : b < s.toList.length := s.length_toList ▸ hb
  refine List.ext_getElem? fun k => ?_
  rw [ListMachine.getElem?_exchange la lb]
  by_cases inside : k < s.size
  · have inside' : k < (s.swap a b ha hb).size := by rwa [s.size_swap]
    rw [getElem?_toList_eq _ inside', s.getElem?_toList_eq ha, s.getElem?_toList_eq hb,
      s.getElem?_toList_eq inside, s.size_swap]
    unfold size at ha hb inside ⊢
    simp only [swap, Array.getElem?_swap]
    by_cases at_b : k = b
    · rw [if_pos (by rw [at_b]), if_pos at_b, Array.getElem?_eq_getElem (by omega)]
    · rw [if_neg (by omega), if_neg at_b]
      by_cases at_a : k = a
      · rw [if_pos (by rw [at_a]), if_pos at_a, Array.getElem?_eq_getElem (by omega)]
      · rw [if_neg (by omega), if_neg at_a]
  · have beyond : s.size ≤ k := Nat.not_lt.1 inside
    rw [if_neg (by omega), if_neg (by omega),
      List.getElem?_eq_none (by rwa [length_toList, size_swap]),
      List.getElem?_eq_none (by rwa [length_toList])]

section Actions

variable {m : Memory ι ω τ}

theorem peek_of_some {n : Nat} {v : String} (there : m.onLists.stack[n]? = some v) :
    Memory.peek n m = .ok v m := by
  have list : m.stack.toList[n]? = some v := there
  have inside : n < m.stack.size := m.stack.length_toList ▸ (List.getElem?_eq_some_iff.1 list).1
  rw [m.stack.getElem?_toList n inside] at list
  exact (dif_pos inside).trans (by rw [Option.some.inj list])

theorem peek_of_none {n : Nat} (beyond : m.onLists.stack[n]? = none) :
    Memory.peek n m = .error (.stackUnderflow n m.onLists.stack.length) m := by
  have outside := List.getElem?_eq_none_iff.1 beyond
  rw [m.length_stack_onLists] at outside ⊢
  exact dif_neg (Nat.not_lt.2 outside)

theorem swap_next (a b : Nat) :
    reply ((Memory.swap a b >>= fun _ => pure .next) m) =
      if max a b < m.onLists.stack.length then
        (.ok .next, { m.onLists with stack := ListMachine.exchange a b m.onLists.stack })
      else (.error (.stackUnderflow (max a b) m.onLists.stack.length), m.onLists) := by
  rw [m.length_stack_onLists]
  split
  · next inside =>
    rw [bind_of_ok (dif_pos inside)]
    simp only [pure, EStateM.pure, reply, Memory.onLists, Stack.toList_swap]
  · next outside =>
    rw [bind_of_error (dif_neg outside)]
    rfl

theorem write_next [Sink ω] (v : String) :
    reply ((Memory.write v >>= fun _ => pure .next) m) = ListMachine.write v m.onLists := by
  rcases sent : Sink.write m.output v with ⟨_ | cause, output⟩
  · have done : Memory.write v m = .ok () { m with output } := by simp only [Memory.write, sent]
    rw [bind_of_ok done]
    simp only [ListMachine.write, Memory.onLists, sent]
    rfl
  · have broken : Memory.write v m = .error (.outputFailed cause) { m with output } := by
      simp only [Memory.write, sent]
    rw [bind_of_error broken]
    simp only [ListMachine.write, Memory.onLists, sent]
    rfl

theorem jumpTo_onLists (labels : LabelTable) (name : String) :
    reply (jumpTo labels name m) = ListMachine.jump labels name m.onLists := by
  cases found : labels.get? name with
  | none => simp only [jumpTo, ListMachine.jump, found]; rfl
  | some target => simp only [jumpTo, ListMachine.jump, found]; rfl

variable [Observer τ]

theorem push_next {limit : Nat} (v : String) (fits : m.onLists.stack.length ≤ limit) :
    reply ((Memory.push limit v >>= fun _ => pure .next) m) =
      ListMachine.push limit v m.onLists := by
  rw [m.length_stack_onLists] at fits
  unfold ListMachine.push
  rw [m.length_stack_onLists]
  split
  · next full =>
    rw [bind_of_error (if_neg (by omega))]
    rfl
  · next room =>
    rw [bind_of_ok (if_pos (by omega))]
    simp only [pure, EStateM.pure, reply, Memory.onLists, Stack.toList_push,
      ListMachine.Memory.hear, List.foldl_cons, List.foldl_nil]

variable {before : ListMachine.Memory ι ω τ} {events : List Event}

theorem pop_of_nil (seen : m.onLists = { before with stack := [] }.hear events) :
    Memory.pop m = .error (.stackUnderflow 0 0) m := by
  have size := m.length_stack_onLists
  rw [seen] at size
  exact dif_neg (Nat.not_lt.2 (Nat.le_of_eq size.symm))

theorem pop_of_cons {v : String} {rest : List String}
    (seen : m.onLists = { before with stack := v :: rest }.hear events) :
    ∃ next, Memory.pop m = .ok v next ∧
      next.onLists = { before with stack := rest }.hear (events ++ [Event.popped]) := by
  have list : m.stack.toList = v :: rest := congrArg ListMachine.Memory.stack seen
  have filled : 0 < m.stack.size := by
    rw [← m.stack.length_toList, list]
    exact Nat.zero_lt_succ _
  have head : m.stack.get 0 filled = v := by
    have first := m.stack.getElem?_toList 0 filled
    rw [list] at first
    exact (Option.some.inj first).symm
  have input : m.input = before.input := congrArg ListMachine.Memory.input seen
  have output : m.output = before.output := congrArg ListMachine.Memory.output seen
  have observed : m.observed = events.foldl Observer.observe before.observed :=
    congrArg ListMachine.Memory.observed seen
  refine ⟨_, (dif_pos filled).trans (by rw [head]), ?_⟩
  simp only [Memory.onLists, ListMachine.Memory.hear, Stack.toList_pop, list, List.tail_cons, input,
    output, observed, List.foldl_append, List.foldl_cons, List.foldl_nil]

theorem seen_at_first {stack : List String} (list : m.onLists.stack = stack) :
    m.onLists = { m.onLists with stack }.hear [] := by
  rw [← list]
  rfl

end Actions

variable [Source ι] [Sink ω] [Observer τ]

theorem concat_onLists (settings : Settings) (labels : LabelTable) {m : Memory ι ω τ}
    (fits : m.onLists.stack.length ≤ settings.maxStack) :
    reply (perform settings labels .concat m) =
      ListMachine.act settings.maxStack labels .concat m.onLists := by
  rw [perform, ListMachine.act]
  rcases list : m.onLists.stack with _ | ⟨head, _ | ⟨below, rest⟩⟩
  · rw [bind_of_error (pop_of_nil (seen_at_first list)), ListMachine.short_of_nil list]
    rfl
  · obtain ⟨m₁, popped₁, seen₁⟩ := pop_of_cons (seen_at_first list)
    rw [bind_of_ok popped₁, bind_of_error (pop_of_nil seen₁), ListMachine.short, list]
    exact congrArg (Prod.mk _) seen₁
  · obtain ⟨m₁, popped₁, seen₁⟩ := pop_of_cons (seen_at_first list)
    obtain ⟨m₂, popped₂, seen₂⟩ := pop_of_cons seen₁
    rw [list] at fits
    have room : m₂.onLists.stack.length < settings.maxStack := by
      rw [seen₂]
      exact Nat.lt_of_succ_lt fits
    rw [bind_of_ok popped₁, bind_of_ok popped₂, push_next _ (Nat.le_of_lt room),
      ListMachine.push_of_lt _ room, seen₂]
    rfl

theorem replaceOne_onLists (settings : Settings) (labels : LabelTable) {m : Memory ι ω τ}
    (fits : m.onLists.stack.length ≤ settings.maxStack) :
    reply (perform settings labels .replaceOne m) =
      ListMachine.act settings.maxStack labels .replaceOne m.onLists := by
  rw [perform, ListMachine.act]
  rcases list : m.onLists.stack with
    _ | ⟨text, _ | ⟨pattern, _ | ⟨replacement, _ | ⟨otherwise, rest⟩⟩⟩⟩
  · rw [bind_of_error (pop_of_nil (seen_at_first list)), ListMachine.short_of_nil list]
    rfl
  · obtain ⟨m₁, popped₁, seen₁⟩ := pop_of_cons (seen_at_first list)
    rw [bind_of_ok popped₁, bind_of_error (pop_of_nil seen₁), ListMachine.short, list]
    exact congrArg (Prod.mk _) seen₁
  · obtain ⟨m₁, popped₁, seen₁⟩ := pop_of_cons (seen_at_first list)
    obtain ⟨m₂, popped₂, seen₂⟩ := pop_of_cons seen₁
    rw [bind_of_ok popped₁, bind_of_ok popped₂, bind_of_error (pop_of_nil seen₂), ListMachine.short,
      list]
    exact congrArg (Prod.mk _) seen₂
  · obtain ⟨m₁, popped₁, seen₁⟩ := pop_of_cons (seen_at_first list)
    obtain ⟨m₂, popped₂, seen₂⟩ := pop_of_cons seen₁
    obtain ⟨m₃, popped₃, seen₃⟩ := pop_of_cons seen₂
    rw [bind_of_ok popped₁, bind_of_ok popped₂, bind_of_ok popped₃,
      bind_of_error (pop_of_nil seen₃), ListMachine.short, list]
    exact congrArg (Prod.mk _) seen₃
  · obtain ⟨m₁, popped₁, seen₁⟩ := pop_of_cons (seen_at_first list)
    obtain ⟨m₂, popped₂, seen₂⟩ := pop_of_cons seen₁
    obtain ⟨m₃, popped₃, seen₃⟩ := pop_of_cons seen₂
    obtain ⟨m₄, popped₄, seen₄⟩ := pop_of_cons seen₃
    rw [list] at fits
    have room : m₄.onLists.stack.length < settings.maxStack := by
      rw [seen₄]
      exact Nat.lt_of_add_right_lt (k := 3) fits
    rw [bind_of_ok popped₁, bind_of_ok popped₂, bind_of_ok popped₃, bind_of_ok popped₄]
    have replaced := Text.map_splice_find settings.engine text pattern replacement
    cases found : settings.engine.find pattern text with
    | none =>
      rw [found] at replaced
      simp only [← replaced, Option.map_none]
      exact (jumpTo_onLists labels otherwise).trans (congrArg _ seen₄)
    | some offset =>
      rw [found] at replaced
      simp only [← replaced, Option.map_some]
      rw [push_next _ (Nat.le_of_lt room), ListMachine.push_of_lt _ room, seen₄]
      rfl

theorem perform_onLists (settings : Settings) (labels : LabelTable) (i : Instruction)
    {m : Memory ι ω τ} (fits : m.onLists.stack.length ≤ settings.maxStack) :
    reply (perform settings labels i m) = ListMachine.act settings.maxStack labels i m.onLists := by
  cases i with
  | push v => exact push_next v fits
  | pop =>
    rw [perform, ListMachine.act]
    cases list : m.onLists.stack with
    | nil =>
      rw [bind_of_error (pop_of_nil (seen_at_first list)), ListMachine.short_of_nil list]
      rfl
    | cons head rest =>
      obtain ⟨next, popped, seen⟩ := pop_of_cons (seen_at_first list)
      rw [bind_of_ok popped]
      exact congrArg (Prod.mk _) seen
  | write =>
    rw [perform, ListMachine.act]
    cases list : m.onLists.stack with
    | nil =>
      rw [bind_of_error (peek_of_none (by rw [list]; rfl)), ListMachine.short_of_nil list, list]
      rfl
    | cons head rest =>
      rw [bind_of_ok (peek_of_some (by rw [list]; rfl))]
      exact write_next head
  | read =>
    rw [perform, ListMachine.act]
    rcases reading : Source.read m.input with ⟨v | _ | cause, input⟩
    · have taken : Memory.read m = .ok v { m with input } := by simp only [Memory.read, reading]
      rw [bind_of_ok taken, show Source.read m.onLists.input = (.value v, input) from reading]
      exact push_next v fits
    · have broken : Memory.read m = .error .inputExhausted { m with input } := by
        simp only [Memory.read, reading]
      rw [bind_of_error broken, show Source.read m.onLists.input = (.ended, input) from reading]
      rfl
    · have broken : Memory.read m = .error (.inputFailed cause) { m with input } := by
        simp only [Memory.read, reading]
      rw [bind_of_error broken,
        show Source.read m.onLists.input = (.failed cause, input) from reading]
      rfl
  | swap a b => exact swap_next a b
  | copy n =>
    rw [perform, ListMachine.act]
    cases there : m.onLists.stack[n]? with
    | none =>
      rw [bind_of_error (peek_of_none there)]
      rfl
    | some v =>
      rw [bind_of_ok (peek_of_some there)]
      exact push_next v fits
  | mark => rfl
  | jump target => rfl
  | jumpDynamic =>
    rw [perform, ListMachine.act]
    cases list : m.onLists.stack with
    | nil =>
      rw [bind_of_error (pop_of_nil (seen_at_first list)), ListMachine.short_of_nil list]
      rfl
    | cons name rest =>
      obtain ⟨next, popped, seen⟩ := pop_of_cons (seen_at_first list)
      rw [bind_of_ok popped, jumpTo_onLists, seen]
      rfl
  | concat => exact concat_onLists settings labels fits
  | replaceOne => exact replaceOne_onLists settings labels fits

theorem step_onLists (settings : Settings) (p : Program) (i : Instruction) {s : State ι ω τ}
    (fits : s.memory.onLists.stack.length ≤ settings.maxStack) :
    (step settings p i s).onLists = ListMachine.step settings p i s.onLists := by
  have acted := perform_onLists settings p.labels i fits
  unfold step ListMachine.step
  rw [State.onLists, ← acted]
  cases perform settings p.labels i s.memory with
  | error fault m => rfl
  | ok effect m =>
    cases effect with
    | next => rfl
    | jump target =>
      simp only [reply]
      by_cases inside : target ≤ p.size
      · rw [if_pos inside, if_neg (Nat.not_lt.2 inside)]
        rfl
      · rw [if_neg inside, if_pos (Nat.not_le.1 inside)]
        rfl

theorem ListMachine.step_length_le (settings : Settings) (p : Program) (i : Instruction)
    {s : ListMachine.State ι ω τ} (fits : s.memory.stack.length ≤ settings.maxStack) :
    (ListMachine.step settings p i s).2.memory.stack.length ≤ settings.maxStack := by
  have kept := ListMachine.act_length_le p.labels i fits
  unfold ListMachine.step
  split
  · next acted => rwa [acted] at kept
  · next acted => rwa [acted] at kept
  · next acted =>
    rw [acted] at kept
    simp only
    split
    · exact kept
    · exact kept

theorem runFor_onLists (settings : Settings) (p : Program) (budget : Nat) {s : State ι ω τ}
    (fits : s.memory.onLists.stack.length ≤ settings.maxStack) :
    (runFor settings p budget s).onLists = ListMachine.runFor settings p budget s.onLists := by
  -- Each step keeps the stack within its limit, so the induction has it for the state after it.
  induction budget generalizing s with
  | zero =>
    unfold runFor ListMachine.runFor
    cases fetched : p.instructions[s.ip]? with
    | none => simp only [State.onLists, fetched]; rfl
    | some i => simp only [State.onLists, fetched]; rfl
  | succ budget ih =>
    unfold runFor ListMachine.runFor
    cases fetched : p.instructions[s.ip]? with
    | none => simp only [State.onLists, fetched]; rfl
    | some i =>
      have stepped := step_onLists settings p i fits
      have kept := ListMachine.step_length_le settings p i (s := s.onLists) fits
      simp only [show s.onLists.ip = s.ip from rfl, fetched]
      rw [← stepped] at kept ⊢
      cases went : step settings p i s with
      | moved effect next =>
        rw [went] at kept
        exact ih kept
      | failed error last => rfl

end StringStack
