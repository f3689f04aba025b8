import StringStack.Machine.Run
import StringStack.Proofs.Text.Replacement

namespace StringStack.ListMachine

structure Memory (ι ω τ : Type) where
  stack : List String
  input : ι
  output : ω
  observed : τ

structure State (ι ω τ : Type) where
  memory : Memory ι ω τ
  ip : Nat
  completed : Nat

structure Outcome (ι ω τ : Type) where
  failure? : Option RunError
  final : State ι ω τ

def exchange (a b : Nat) (stack : List String) : List String :=
  match stack[a]?, stack[b]? with
  | some x, some y => (stack.set a y).set b x
  | _, _ => stack

theorem exchange_eq {a b : Nat} {stack : List String} (ha : a < stack.length)
    (hb : b < stack.length) :
    exchange a b stack = (stack.set a stack[b]).set b stack[a] := by
  simp only [exchange, List.getElem?_eq_getElem ha, List.getElem?_eq_getElem hb]

theorem exchange_perm {a b : Nat} {stack : List String} (ha : a < stack.length)
    (hb : b < stack.length) :
    (exchange a b stack).Perm stack := by
  have swapped : (stack.toArray.swap a b ha hb).Perm stack.toArray := Array.swap_perm ha hb
  rw [List.swap_toArray, Array.perm_iff_toList_perm] at swapped
  rw [exchange_eq ha hb]
  exact swapped

theorem getElem?_exchange {a b : Nat} {stack : List String} (ha : a < stack.length)
    (hb : b < stack.length) (k : Nat) :
    (exchange a b stack)[k]? =
      if k = b then stack[a]? else if k = a then stack[b]? else stack[k]? := by
  rw [exchange_eq ha hb]
  by_cases at_b : k = b
  · subst at_b
    rw [List.getElem?_set_self (by simpa using hb), if_pos rfl, List.getElem?_eq_getElem ha]
  · rw [List.getElem?_set_ne (Ne.symm at_b), if_neg at_b]
    by_cases at_a : k = a
    · subst at_a
      rw [List.getElem?_set_self ha, if_pos rfl, List.getElem?_eq_getElem hb]
    · rw [List.getElem?_set_ne (Ne.symm at_a), if_neg at_a]

variable {ι ω τ : Type}

def jump (labels : LabelTable) (name : String) (m : Memory ι ω τ) :
    Except Fault Effect × Memory ι ω τ :=
  match labels.get? name with
  | some target => (.ok (.jump target), m)
  | none => (.error (.undefinedLabel name), m)

def write [Sink ω] (v : String) (m : Memory ι ω τ) : Except Fault Effect × Memory ι ω τ :=
  match Sink.write m.output v with
  | (none, output) => (.ok .next, { m with output })
  | (some cause, output) => (.error (.outputFailed cause), { m with output })

variable [Observer τ]

def Memory.hear (m : Memory ι ω τ) (events : List Event) : Memory ι ω τ :=
  { m with observed := events.foldl Observer.observe m.observed }

def push (limit : Nat) (v : String) (m : Memory ι ω τ) : Except Fault Effect × Memory ι ω τ :=
  if m.stack.length = limit then (.error .pushFailed, m)
  else (.ok .next, { m with stack := v :: m.stack }.hear [.pushed v])

/-- The stack does not have all the operands of an instruction; those that it has are lost. -/
def short (m : Memory ι ω τ) : Except Fault Effect × Memory ι ω τ :=
  (.error (.stackUnderflow 0 0), { m with stack := [] }.hear (m.stack.map fun _ => .popped))

theorem short_of_nil {m : Memory ι ω τ} (empty : m.stack = []) :
    short m = (.error (.stackUnderflow 0 0), m) := by
  obtain ⟨stack, input, output, observed⟩ := m
  cases empty
  rfl

theorem push_of_lt {limit : Nat} (v : String) {m : Memory ι ω τ} (room : m.stack.length < limit) :
    push limit v m = (.ok .next, { m with stack := v :: m.stack }.hear [.pushed v]) :=
  if_neg (Nat.ne_of_lt room)

theorem push_length_le {limit : Nat} (v : String) {m : Memory ι ω τ}
    (fits : m.stack.length ≤ limit) :
    (push limit v m).2.stack.length ≤ limit := by
  unfold push
  split
  · exact fits
  · next room => exact Nat.lt_of_le_of_ne fits room

theorem push_output (limit : Nat) (v : String) (m : Memory ι ω τ) :
    (push limit v m).2.output = m.output := by
  unfold push
  split
  · rfl
  · rfl

variable [Source ι] [Sink ω]

def act (limit : Nat) (labels : LabelTable) (i : Instruction) (m : Memory ι ω τ) :
    Except Fault Effect × Memory ι ω τ :=
  match i with
  | .push v => push limit v m
  | .pop =>
    match m.stack with
    | _ :: rest => (.ok .next, { m with stack := rest }.hear [.popped])
    | [] => short m
  | .write =>
    match m.stack with
    | head :: _ => write head m
    | [] => short m
  | .read =>
    match Source.read m.input with
    | (.value v, input) => push limit v { m with input }
    | (.ended, input) => (.error .inputExhausted, { m with input })
    | (.failed cause, input) => (.error (.inputFailed cause), { m with input })
  | .swap a b =>
    if max a b < m.stack.length then (.ok .next, { m with stack := exchange a b m.stack })
    else (.error (.stackUnderflow (max a b) m.stack.length), m)
  | .copy n =>
    match m.stack[n]? with
    | some v => push limit v m
    | none => (.error (.stackUnderflow n m.stack.length), m)
  | .mark => (.ok .next, m)
  | .jump target => (.ok (.jump target), m)
  | .jumpDynamic =>
    match m.stack with
    | name :: rest => jump labels name ({ m with stack := rest }.hear [.popped])
    | [] => short m
  | .concat =>
    match m.stack with
    | head :: below :: rest =>
      (.ok .next, { m with stack := (head ++ below) :: rest }.hear
        [.popped, .popped, .pushed (head ++ below)])
    | _ => short m
  | .replaceOne =>
    match m.stack with
    | text :: pattern :: replacement :: otherwise :: rest =>
      match Text.replaceFirst text pattern replacement with
      | some replaced =>
        (.ok .next, { m with stack := replaced :: rest }.hear
          [.popped, .popped, .popped, .popped, .pushed replaced])
      | none =>
        jump labels otherwise ({ m with stack := rest }.hear [.popped, .popped, .popped, .popped])
    | _ => short m

def step (settings : Settings) (p : Program) (i : Instruction) (s : State ι ω τ) :
    Option RunError × State ι ω τ :=
  match act settings.maxStack p.labels i s.memory with
  | (.error fault, m) =>
    (some (.instructionFailed i s.ip s.completed fault),
      { s with memory := m.hear [.executed s.ip i (.error fault)] })
  | (.ok .next, m) => (none, ⟨m.hear [.executed s.ip i (.ok .next)], s.ip + 1, s.completed + 1⟩)
  | (.ok (.jump target), m) =>
    let memory := m.hear [.executed s.ip i (.ok (.jump target))]
    if p.size < target then
      (some (.instructionFailed i s.ip s.completed (.instructionOutOfRange target)),
        { s with memory })
    else (none, ⟨memory, target, s.completed + 1⟩)

def runFor (settings : Settings) (p : Program) (budget : Nat) (s : State ι ω τ) : Outcome ι ω τ :=
  match p.instructions[s.ip]? with
  | none => ⟨none, s⟩
  | some i =>
    match budget with
    | 0 => ⟨some (.tooLong s.completed), s⟩
    | budget + 1 =>
      match step settings p i s with
      | (none, next) => runFor settings p budget next
      | (some error, last) => ⟨some error, last⟩

def run (settings : Settings) (p : Program) (input : ι) (output : ω) (observed : τ) :
    Outcome ι ω τ :=
  runFor settings p settings.maxOps ⟨⟨[], input, output, observed⟩, 0, 0⟩

end StringStack.ListMachine
