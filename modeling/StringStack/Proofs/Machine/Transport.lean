import StringStack.Proofs.Machine.Course

/-! Runs that are carried over by a map on memories. If each action on the memory does after the map
what it does before it, then so does each instruction, and with it every step, course and run. An
action may differ where it meets a fault that the map mends; a run that does not end in such a fault
is carried over as a whole, and one that does is carried over up to there. -/
namespace StringStack

variable {ι κ ω π τ σ α β : Type}

def resultThrough (g : Memory ι ω τ → Memory κ π σ) :
    EStateM.Result Fault (Memory ι ω τ) α → EStateM.Result Fault (Memory κ π σ) α
  | .ok a m => .ok a (g m)
  | .error fault m => .error fault (g m)

def State.through (g : Memory ι ω τ → Memory κ π σ) (s : State ι ω τ) : State κ π σ :=
  ⟨g s.memory, s.ip, s.completed⟩

def Progress.through (g : Memory ι ω τ → Memory κ π σ) : Progress ι ω τ → Progress κ π σ
  | .moved effect s => .moved effect (s.through g)
  | .failed error s => .failed error (s.through g)

def Outcome.through (g : Memory ι ω τ → Memory κ π σ) (o : Outcome ι ω τ) : Outcome κ π σ :=
  ⟨o.failure?, o.final.through g⟩

def Outcome.Meets (mended : Fault → Prop) (o : Outcome ι ω τ) : Prop :=
  ∃ i index n fault, mended fault ∧ o.failure? = some (.instructionFailed i index n fault)

/-- The second action does on mapped memories what the first one does, unless that meets a fault of
this kind. -/
def Lifts (g : Memory ι ω τ → Memory κ π σ) (mended : Fault → Prop) (x : Action ι ω τ α)
    (y : Action κ π σ α) :
    Prop :=
  ∀ m, (∃ fault last, mended fault ∧ x m = .error fault last) ∨ y (g m) = resultThrough g (x m)

section Actions

variable {g : Memory ι ω τ → Memory κ π σ} {mended : Fault → Prop}

theorem Lifts.bind {x : Action ι ω τ α} {y : Action κ π σ α} {f : α → Action ι ω τ β}
    {h : α → Action κ π σ β} (first : Lifts g mended x y)
    (second : ∀ a, Lifts g mended (f a) (h a)) :
    Lifts g mended (x >>= f) (y >>= h) := by
  intro m
  rcases first m with ⟨fault, last, kind, broken⟩ | same
  · exact .inl ⟨fault, last, kind, bind_of_error broken⟩
  · cases result : x m with
    | error fault last =>
      rw [result] at same
      right
      rw [bind_of_error result, bind_of_error same]
      rfl
    | ok a next =>
      rw [result] at same
      rw [bind_of_ok result, bind_of_ok same]
      exact second a next

theorem lifts_pure (a : α) : Lifts g mended (pure a) (pure a) := fun _ => .inr rfl

theorem lifts_jumpTo (labels : LabelTable) (name : String) :
    Lifts g mended (jumpTo labels name) (jumpTo labels name) := by
  intro m
  right
  unfold jumpTo
  cases labels.get? name with
  | none => rfl
  | some target => rfl

end Actions

theorem lifts_read [Source ι] [Source κ] {a : ι → κ} {g : Memory ι ω τ → Memory κ π σ}
    {mended : Fault → Prop}
    (follows : ∀ input, Source.read (a input) = ((Source.read input).1, a (Source.read input).2))
    (same : ∀ m, (g m).input = a m.input)
    (sets : ∀ m input, g { m with input } = { g m with input := a input }) :
    Lifts g mended Memory.read Memory.read := by
  intro m
  right
  have answer := follows m.input
  rcases reading : Source.read m.input with ⟨v | _ | cause, input⟩
  · simp only [Memory.read, same, answer, reading, resultThrough, sets m input]
  · simp only [Memory.read, same, answer, reading, resultThrough, sets m input]
  · simp only [Memory.read, same, answer, reading, resultThrough, sets m input]

theorem lifts_write [Sink ω] {g : Memory ι ω τ → Memory κ ω σ} {mended : Fault → Prop}
    (same : ∀ m, (g m).output = m.output)
    (sets : ∀ m output, g { m with output } = { g m with output }) (v : String) :
    Lifts g mended (Memory.write v) (Memory.write v) := by
  intro m
  right
  rcases sent : Sink.write m.output v with ⟨_ | cause, output⟩
  · simp only [Memory.write, same, sent, resultThrough, sets m output]
  · simp only [Memory.write, same, sent, resultThrough, sets m output]

variable [Source ι] [Sink ω] [Observer τ] [Source κ] [Sink π] [Observer σ]

/-- The actions on the memory go along with the map, under settings that may differ in the limit on
the stack. -/
structure Transports (g : Memory ι ω τ → Memory κ π σ) (mended : Fault → Prop)
    (settings other : Settings) :
    Prop where
  push : ∀ v, Lifts g mended (Memory.push settings.maxStack v) (Memory.push other.maxStack v)
  pop : Lifts g mended Memory.pop Memory.pop
  peek : ∀ n, Lifts g mended (Memory.peek n) (Memory.peek n)
  swap : ∀ a b, Lifts g mended (Memory.swap a b) (Memory.swap a b)
  read : Lifts g mended Memory.read Memory.read
  write : ∀ v, Lifts g mended (Memory.write v) (Memory.write v)
  observe : ∀ m e, g (m.observe e) = (g m).observe e
  maxOps : other.maxOps = settings.maxOps
  engine : other.engine = settings.engine

variable {g : Memory ι ω τ → Memory κ π σ} {mended : Fault → Prop} {settings other : Settings}
  {p : Program}

theorem Transports.next (transports : Transports g mended settings other) (v : String) :
    Lifts g mended (do Memory.push settings.maxStack v; return Effect.next)
      (do Memory.push other.maxStack v; return Effect.next) :=
  (transports.push v).bind fun _ => lifts_pure Effect.next

theorem Transports.perform (transports : Transports g mended settings other) (labels : LabelTable)
    (i : Instruction) : Lifts g mended (perform settings labels i) (perform other labels i) := by
  cases i with
  | push v => exact transports.next v
  | pop => exact transports.pop.bind fun _ => lifts_pure Effect.next
  | write =>
    apply (transports.peek 0).bind
    intro v
    exact (transports.write v).bind fun _ => lifts_pure Effect.next
  | read => exact transports.read.bind transports.next
  | swap a b => exact (transports.swap a b).bind fun _ => lifts_pure Effect.next
  | copy n => exact (transports.peek n).bind transports.next
  | mark => exact lifts_pure Effect.next
  | jump target => exact lifts_pure (Effect.jump target)
  | jumpDynamic => exact transports.pop.bind (lifts_jumpTo labels)
  | concat =>
    apply transports.pop.bind
    intro head
    apply transports.pop.bind
    intro below
    exact transports.next (head ++ below)
  | replaceOne =>
    apply transports.pop.bind
    intro text
    apply transports.pop.bind
    intro pattern
    apply transports.pop.bind
    intro replacement
    apply transports.pop.bind
    intro otherwise
    rw [transports.engine]
    cases settings.engine.find pattern text with
    | none => exact lifts_jumpTo labels otherwise
    | some offset => exact transports.next _

theorem Transports.step (transports : Transports g mended settings other) (i : Instruction)
    (s : State ι ω τ) :
    (∃ fault last, mended fault ∧ step settings p i s =
      .failed (.instructionFailed i s.ip s.completed fault) last) ∨
      step other p i (s.through g) = (step settings p i s).through g ∧
        visit other p i (s.through g) = visit settings p i s := by
  rcases transports.perform p.labels i s.memory with ⟨fault, last, kind, broken⟩ | same
  · exact .inl ⟨fault, _, kind, step_of_error broken⟩
  · right
    unfold StringStack.step visit
    simp only [State.through, same]
    cases StringStack.perform settings p.labels i s.memory with
    | error fault m =>
      simp only [resultThrough, ← transports.observe]
      exact ⟨rfl, rfl⟩
    | ok effect m =>
      simp only [resultThrough, ← transports.observe]
      cases effect with
      | next => exact ⟨rfl, rfl⟩
      | jump target =>
        by_cases inside : target ≤ p.size
        · simp only [if_pos inside]
          exact ⟨rfl, rfl⟩
        · simp only [if_neg inside]
          exact ⟨rfl, rfl⟩

variable {start s : State ι ω τ} {visits : List Visit}

theorem Transports.completes (transports : Transports g mended settings other)
    (completes : Completes settings p start visits s) :
    Completes other p (start.through g) visits (s.through g) := by
  induction completes with
  | start => exact .start
  | @next visits s next i effect _ fetched allowed went ih =>
    rcases transports.step (p := p) i s with ⟨fault, last, -, failed⟩ | ⟨same, visited⟩
    · cases went.symm.trans failed
    · rw [went] at same
      rw [← visited]
      exact .next ih fetched (transports.maxOps ▸ allowed) same

theorem Transports.comes_from (transports : Transports g mended settings other)
    (never : ∀ fault, ¬ mended fault) {t : State κ π σ}
    (completes : Completes other p (start.through g) visits t) :
    ∃ s, Completes settings p start visits s ∧ t = s.through g := by
  induction completes with
  | start => exact ⟨start, .start, rfl⟩
  | @next visits t next i effect _ fetched allowed went ih =>
    obtain ⟨s, before, rfl⟩ := ih
    obtain ⟨fault, -, kind, -⟩ | ⟨same, visited⟩ := transports.step (p := p) i s
    · exact absurd kind (never fault)
    · rw [same] at went
      rw [visited]
      cases taken : StringStack.step settings p i s with
      | moved effect' after =>
        rw [taken] at went
        cases went
        exact ⟨after, before.next fetched (transports.maxOps ▸ allowed) taken, rfl⟩
      | failed error last =>
        rw [taken] at went
        cases went

theorem Transports.ends (transports : Transports g mended settings other) {o : Outcome ι ω τ}
    (ends : Ends settings p s o) : o.Meets mended ∨ Ends other p (s.through g) (o.through g) := by
  cases ends with
  | finished beyond => exact .inr (.finished beyond)
  | tooLong fetched spent => exact .inr (.tooLong fetched (transports.maxOps ▸ spent))
  | @failed i error last fetched allowed went =>
    rcases transports.step (p := p) i s with ⟨fault, last, kind, failed⟩ | ⟨same, -⟩
    · cases went.symm.trans failed
      exact .inl ⟨i, s.ip, s.completed, fault, kind, rfl⟩
    · rw [went] at same
      exact .inr (.failed fetched (transports.maxOps ▸ allowed) same)

theorem Transports.runFrom (transports : Transports g mended settings other) (p : Program)
    (start : State ι ω τ) :
    (runFrom settings p start).Meets mended ∨
      runFrom other p (start.through g) = (runFrom settings p start).through g := by
  obtain ⟨visits, last, completes, ends⟩ := runFrom_completes settings p start
  rcases transports.ends ends with meets | ends'
  · exact .inl meets
  · exact .inr ((transports.completes completes).runFrom_eq ends')

def Memory.convert (a : ι → κ) (b : ω → π) (c : τ → σ) (m : Memory ι ω τ) : Memory κ π σ :=
  ⟨m.stack, a m.input, b m.output, c m.observed⟩

theorem transports_convert {a : ι → κ} {b : ω → π} {c : τ → σ} (settings : Settings)
    (read : Lifts (Memory.convert a b c : Memory ι ω τ → Memory κ π σ) mended
      Memory.read Memory.read)
    (write : ∀ v, Lifts (Memory.convert a b c : Memory ι ω τ → Memory κ π σ) mended
      (Memory.write v) (Memory.write v))
    (heard : ∀ t e, c (Observer.observe t e) = Observer.observe (c t) e) :
    Transports (Memory.convert a b c : Memory ι ω τ → Memory κ π σ) mended settings settings where
  push := by
    intro v m
    right
    unfold Memory.push
    by_cases room : m.stack.size < settings.maxStack
    · rw [if_pos room]
      exact (if_pos room).trans (by simp only [resultThrough, Memory.convert, heard])
    · rw [if_neg room]
      exact if_neg room
  pop := by
    intro m
    right
    unfold Memory.pop
    by_cases filled : 0 < m.stack.size
    · rw [dif_pos filled]
      exact (dif_pos filled).trans (by simp only [resultThrough, Memory.convert, heard])
    · rw [dif_neg filled]
      exact dif_neg filled
  peek := by
    intro n m
    right
    unfold Memory.peek
    by_cases inside : n < m.stack.size
    · rw [dif_pos inside]
      exact dif_pos inside
    · rw [dif_neg inside]
      exact dif_neg inside
  swap := by
    intro a b m
    right
    unfold Memory.swap
    by_cases inside : max a b < m.stack.size
    · rw [dif_pos inside]
      exact dif_pos inside
    · rw [dif_neg inside]
      exact dif_neg inside
  read := read
  write := write
  observe := by
    intro m e
    rw [Memory.convert, Memory.observe, heard]
    rfl
  maxOps := rfl
  engine := rfl

end StringStack
