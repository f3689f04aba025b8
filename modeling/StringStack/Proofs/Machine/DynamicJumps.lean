import StringStack.Proofs.Machine.InstructionLimit
import StringStack.Proofs.Machine.InstructionPointer
import StringStack.Proofs.Machine.Statistics
import StringStack.Proofs.Program.Respelling

/-! Fixed and dynamic jumps agree. A jump that takes the name of its label from the stack goes where
the fixed jump to that label goes, and the stack is then as before, if it had room for the name. So
a program with some of its jumps written that way follows the other one: for a jump it takes two
steps, for everything else one, and it is always at the place that the instructions have moved
to. -/
namespace StringStack

variable {ι ω σ τ : Type}

def Effect.moved (f : Nat → Nat) : Effect → Effect
  | .next => .next
  | .jump target => .jump (f target)

def movedResult (f : Nat → Nat) :
    EStateM.Result Fault (Memory ι ω τ) Effect → EStateM.Result Fault (Memory ι ω τ) Effect
  | .ok effect m => .ok (effect.moved f) m
  | .error fault m => .error fault m

theorem map_apply (f : Nat → Nat) (x : Action ι ω τ Effect) (m : Memory ι ω τ) :
    (Effect.moved f <$> x) m = movedResult f (x m) := by
  change EStateM.map (Effect.moved f) x m = _
  unfold EStateM.map
  cases x m with
  | ok effect m => rfl
  | error fault m => rfl

def Memory.unobserved (m : Memory ι ω τ) : Memory ι ω Unit := m.seenBy fun _ => ()

section Labels

variable {f : Nat → Nat} {labels others : LabelTable}

theorem jumpTo_moved (moved : ∀ name, others.get? name = (labels.get? name).map f) (name : String) :
    (jumpTo others name : Action ι ω τ Effect) = Effect.moved f <$> jumpTo labels name := by
  unfold jumpTo
  rw [moved]
  cases labels.get? name with
  | none => rfl
  | some target => rfl

variable [Source ι] [Sink ω] [Observer τ] [Observer σ]

theorem perform_moved (settings : Settings)
    (moved : ∀ name, others.get? name = (labels.get? name).map f) (i : Instruction) :
    (perform settings others (i.moved f) : Action ι ω τ Effect) =
      Effect.moved f <$> perform settings labels i := by
  cases i with
  | jumpDynamic => simp only [perform, Instruction.moved, map_bind, jumpTo_moved moved]
  | replaceOne =>
    simp only [perform, Instruction.moved, map_bind]
    apply bind_congr
    intro text
    apply bind_congr
    intro pattern
    apply bind_congr
    intro replacement
    apply bind_congr
    intro otherwise
    cases settings.engine.find pattern text with
    | none => exact jumpTo_moved moved otherwise
    | some offset => simp only [map_bind, map_pure, Effect.moved]
  | _ => simp only [perform, Instruction.moved, map_bind, map_pure, Effect.moved]

variable {m : Memory ι ω τ} {m' : Memory ι ω σ}

theorem perform_unobserved (settings : Settings)
    (moved : ∀ name, others.get? name = (labels.get? name).map f) (i : Instruction)
    (same : m'.unobserved = m.unobserved) :
    resultThrough Memory.unobserved (perform settings others (i.moved f) m') =
      movedResult f (resultThrough Memory.unobserved (perform settings labels i m)) := by
  have forgets : Translates fun _ : τ => () := fun _ _ => rfl
  have forgets' : Translates fun _ : σ => () := fun _ _ => rfl
  calc resultThrough Memory.unobserved (perform settings others (i.moved f) m')
      = perform settings others (i.moved f) m'.unobserved :=
        (forgets'.perform settings others (i.moved f) m').symm
    _ = perform settings others (i.moved f) m.unobserved := by rw [same]
    _ = movedResult f (perform settings labels i m.unobserved) := by
      rw [perform_moved settings moved, map_apply]
    _ = movedResult f (resultThrough Memory.unobserved (perform settings labels i m)) :=
      congrArg (movedResult f) (forgets.perform settings labels i m)

theorem perform_moved_ok {settings : Settings}
    (moved : ∀ name, others.get? name = (labels.get? name).map f) {i : Instruction}
    (same : m'.unobserved = m.unobserved) {effect : Effect} {after : Memory ι ω τ}
    (performed : perform settings labels i m = .ok effect after) :
    ∃ after', perform settings others (i.moved f) m' = .ok (effect.moved f) after' ∧
      after'.unobserved = after.unobserved := by
  have seen := perform_unobserved settings moved i same
  rw [performed] at seen
  cases result : perform settings others (i.moved f) m' with
  | error fault last =>
    rw [result] at seen
    cases seen
  | ok effect' after' =>
    rw [result] at seen
    injection seen with effects memories
    exact ⟨after', by rw [effects], memories⟩

theorem perform_moved_error {settings : Settings}
    (moved : ∀ name, others.get? name = (labels.get? name).map f) {i : Instruction}
    (same : m'.unobserved = m.unobserved) {fault : Fault} {last : Memory ι ω τ}
    (performed : perform settings labels i m = .error fault last) :
    ∃ last', perform settings others (i.moved f) m' = .error fault last' ∧
    last'.unobserved = last.unobserved := by
  have seen := perform_unobserved settings moved i same
  rw [performed] at seen
  cases result : perform settings others (i.moved f) m' with
  | ok effect after =>
    rw [result] at seen
    cases seen
  | error fault' last' =>
    rw [result] at seen
    injection seen with faults memories
    exact ⟨last', by rw [faults], memories⟩

end Labels

theorem Memory.unobserved_observe [Observer τ] (m : Memory ι ω τ) (e : Event) :
    (m.observe e).unobserved = m.unobserved := rfl

/-- The one run has the memory of the other run, and is where the other's next instruction has
gone. -/
structure Follows (chosen : Nat → Bool) (s : State ι ω τ) (t : State ι ω σ) : Prop where
  memory : t.memory.unobserved = s.memory.unobserved
  ip : t.ip = Program.place chosen s.ip

/-- How many instructions a course takes when each chosen one is two. -/
def lengthened (chosen : Nat → Bool) (visits : List Visit) : Nat :=
  visits.length + visits.countP fun v => chosen v.index

theorem lengthened_concat (chosen : Nat → Bool) (visits : List Visit) (v : Visit) :
    lengthened chosen (visits ++ [v]) =
      lengthened chosen visits + if chosen v.index then 2 else 1 := by
  unfold lengthened
  rw [List.length_append, List.length_singleton, List.countP_append, List.countP_singleton]
  cases chosen v.index with
  | false => simp only [Bool.false_eq_true, if_false]; omega
  | true => simp only [if_true]; omega

variable [Source ι] [Sink ω] [Observer τ] {settings : Settings} {p q : Program}

theorem step_push (q : Program) (v : String) {t : State ι ω τ}
    (free : t.memory.stack.size < settings.maxStack) :
    ∃ u, step settings q (.push v) t = .moved .next u ∧
      u.memory.unobserved = { t.memory.unobserved with stack := t.memory.stack.push v } ∧
      u.ip = t.ip + 1 ∧
      u.completed = t.completed + 1 := by
  have performed : perform settings q.labels (.push v) t.memory =
      .ok .next { t.memory with
        stack := t.memory.stack.push v
        observed := Observer.observe t.memory.observed (.pushed v) } :=
    bind_of_ok (if_pos free)
  exact ⟨_, step_of_ok performed .next, rfl, rfl, rfl⟩

theorem step_jumpDynamic {name : String} {target : Nat} (found : q.labels.get? name = some target)
    (inside : target ≤ q.size) {t : State ι ω τ} {stack : Stack}
    (top : t.memory.stack = stack.push name) :
    ∃ u, step settings q .jumpDynamic t = .moved (.jump target) u ∧
      u.memory.unobserved = { t.memory.unobserved with stack } ∧ u.ip = target ∧
      u.completed = t.completed + 1 := by
  obtain ⟨⟨_, input, output, observed⟩, ip, completed⟩ := t
  subst top
  have filled : 0 < (stack.push name).size := stack.size_push name ▸ Nat.succ_pos _
  have popped : Memory.pop (⟨stack.push name, input, output, observed⟩ : Memory ι ω τ) =
      .ok name ⟨stack, input, output, Observer.observe observed .popped⟩ := by
    unfold Memory.pop
    simp only [dif_pos filled, Stack.get_push, Stack.pop_push]
  have performed : perform settings q.labels .jumpDynamic
    (⟨stack.push name, input, output, observed⟩ : Memory ι ω τ) =
      .ok (.jump target) ⟨stack, input, output, Observer.observe observed .popped⟩ := by
    refine (bind_of_ok popped).trans ?_
    simp only [jumpTo, found]
    rfl
  exact ⟨_, step_of_ok performed (.jump inside), rfl, rfl, rfl⟩

theorem exists_turns_push_jump (settings : Settings) {name : String} {target : Nat}
    {t : State ι ω τ} (push : q.instructions[t.ip]? = some (.push name))
    (jump : q.instructions[t.ip + 1]? = some .jumpDynamic)
    (found : q.labels.get? name = some target) (inside : target ≤ q.size)
    (free : t.memory.stack.size < settings.maxStack) (room : t.completed + 1 < settings.maxOps) :
    ∃ mid u, Turns settings q t mid ∧ Turns settings q mid u ∧
    u.memory.unobserved = t.memory.unobserved ∧
      u.ip = target ∧ u.completed = t.completed + 2 := by
  obtain ⟨mid, pushed, memory, ip, completed⟩ := step_push q name free
  have top : mid.memory.stack = t.memory.stack.push name := congrArg Memory.stack memory
  obtain ⟨u, jumped, memory', arrived, completed'⟩ := step_jumpDynamic found inside top
  have first : Turns settings q t mid := ⟨_, _, push, Nat.lt_of_succ_lt room, pushed⟩
  rw [← ip] at jump
  rw [← completed] at room
  refine ⟨mid, u, first, ⟨_, _, jump, room, jumped⟩, ?_, arrived, ?_⟩
  · rw [memory', memory]
    rfl
  · rw [completed', completed]

variable [Observer σ] {chosen : Nat → Bool} {s next : State ι ω τ} {t : State ι ω σ}
  {i : Instruction}
  {effect : Effect} {l : Nat}

theorem Moves.moved {ip there : Nat} (moves : Moves p ip effect there)
    (respells : p.Respells chosen q) (kept : chosen ip = false) :
    Moves q (Program.place chosen ip) (effect.moved (Program.place chosen))
      (Program.place chosen there) := by
  cases moves with
  | next =>
    rw [Program.place_kept kept]
    exact .next
  | jump inside => exact .jump (respells.place_le inside)

theorem Follows.kept (follows : Follows chosen s t) (respells : p.Respells chosen q)
    (fetched : p.instructions[s.ip]? = some i) (kept : chosen s.ip = false)
    (went : step settings p i s = .moved effect next) (room : t.completed < l) :
    ∃ u : State ι ω σ, Turns { settings with maxOps := l } q t u ∧ Follows chosen next u ∧
      u.completed = t.completed + 1 := by
  obtain ⟨m, performed, memory, -, moves⟩ := step_moved went
  obtain ⟨m', performed', same⟩ := perform_moved_ok respells.labels follows.memory performed
  have there := respells.kept fetched kept
  have moved := moves.moved respells kept
  rw [← follows.ip] at there moved
  have went' := step_of_ok performed' moved
  rw [← step_maxOps settings l] at went'
  refine ⟨_, ⟨_, _, there, room, went'⟩, ⟨?_, rfl⟩, rfl⟩
  rw [memory, Memory.unobserved_observe, Memory.unobserved_observe, same]

/-- A chosen jump is two steps of the run that follows, and takes a free place on the stack in
between. -/
theorem Follows.jump (follows : Follows chosen s t) (respells : p.Respells chosen q)
    (fetched : p.instructions[s.ip]? = some i) (is_chosen : chosen s.ip = true)
    (went : step settings p i s = .moved effect next)
    (free : s.memory.stack.size < settings.maxStack) (room : t.completed + 1 < l) :
    ∃ mid u : State ι ω σ, Turns { settings with maxOps := l } q t mid ∧
    Turns { settings with maxOps := l } q mid u ∧
      Follows chosen next u ∧ u.completed = t.completed + 2 := by
  obtain ⟨name, target, rfl, found, push, jump⟩ := respells.jump fetched is_chosen
  obtain ⟨m, performed, memory, -, moves⟩ := step_moved went
  cases performed
  obtain ⟨inside, arrived⟩ : target ≤ p.size ∧ next.ip = target := by
    generalize next.ip = there at moves
    cases moves with
    | jump inside => exact ⟨inside, rfl⟩
  have stack : t.memory.stack = s.memory.stack := congrArg Memory.stack follows.memory
  rw [← follows.ip] at push jump
  rw [← stack] at free
  obtain ⟨mid, u, first, second, same, there, completed⟩ :=
    exists_turns_push_jump { settings with maxOps := l } push jump (respells.get?_eq found)
      (respells.place_le inside)
      free room
  refine ⟨mid, u, first, second, ⟨?_, ?_⟩, completed⟩
  · rw [same, follows.memory, memory, Memory.unobserved_observe]
  · rw [there, arrived]

theorem Follows.turn (follows : Follows chosen s t) (respells : p.Respells chosen q)
    (fetched : p.instructions[s.ip]? = some i) (went : step settings p i s = .moved effect next)
    (free : s.memory.stack.size < settings.maxStack)
    (room : t.completed + (if chosen s.ip then 2 else 1) ≤ l) :
    ∃ u : State ι ω σ, Reaches { settings with maxOps := l } q t u ∧ Follows chosen next u ∧
      u.completed = t.completed + if chosen s.ip then 2 else 1 := by
  cases here : chosen s.ip with
  | false =>
    rw [here] at room
    obtain ⟨u, turned, follows', completed⟩ := follows.kept respells fetched here went room
    exact ⟨u, .single turned, follows', completed⟩
  | true =>
    rw [here] at room
    obtain ⟨mid, u, first, second, follows', completed⟩ :=
      follows.jump respells fetched here went free room
    exact ⟨u, .tail (.single first) second, follows', completed⟩

variable {input : ι} {output : ω} {observed : τ} {visits : List Visit}

theorem Completes.followed
    (completes : Completes settings p (.start input output observed) visits s)
    (respells : p.Respells chosen q)
    (free : ∀ others u, Completes settings p (.start input output observed) others u →
      u.memory.stack.size < settings.maxStack)
    (observed' : σ) (room : lengthened chosen visits ≤ l) :
    ∃ t, Reaches { settings with maxOps := l } q (.start input output observed') t ∧
    Follows chosen s t ∧
      t.completed = lengthened chosen visits := by
  -- By induction on the course of the run that is followed.
  induction completes with
  | start => exact ⟨_, .refl, ⟨rfl, rfl⟩, rfl⟩
  | @next visits s next i effect before fetched allowed went ih =>
    rw [lengthened_concat] at room
    obtain ⟨t, reached, follows, completed⟩ := ih (Nat.le_of_add_right_le room)
    have turn := follows.turn (l := l) respells fetched went (free _ s before)
    rw [completed] at turn
    obtain ⟨u, further, follows', completed'⟩ := turn room
    refine ⟨u, reached.trans further, follows', ?_⟩
    rw [completed', lengthened_concat]
    rfl

omit [Observer τ] in
theorem Follows.runFrom_finished {start : State ι ω σ} (follows : Follows chosen s t)
    (respells : p.Respells chosen q) (ended : p.instructions[s.ip]? = none)
    (reached : Reaches { settings with maxOps := l } q start t) :
    runFrom { settings with maxOps := l } q start = ⟨none, t⟩ := by
  have outside : p.size ≤ s.ip := Array.getElem?_eq_none_iff.1 ended
  have beyond : q.size ≤ t.ip := follows.ip ▸ respells.size_le outside
  have ended' : q.instructions[t.ip]? = none := Array.getElem?_eq_none_iff.2 beyond
  exact reached.runFrom_eq.trans (Ends.finished ended').runFrom_eq

theorem Follows.runFrom_failed {start : State ι ω σ} {fault : Fault} {last : State ι ω τ}
    (follows : Follows chosen s t) (respells : p.Respells chosen q) (linked : p.Linked)
    (fetched : p.instructions[s.ip]? = some i) (breaks : Breaks settings p i s.memory fault)
    (went : step settings p i s = .failed (.instructionFailed i s.ip s.completed fault) last)
    (reached : Reaches { settings with maxOps := l } q start t) (room : t.completed < l) :
    ∃ last' : State ι ω σ, last'.memory.unobserved = last.memory.unobserved ∧
      runFrom { settings with maxOps := l } q start =
        ⟨some (.instructionFailed (i.moved (Program.place chosen))
        (Program.place chosen s.ip) t.completed fault), last'⟩ := by
  have ordinary := breaks.ofInstruction linked fetched
  cases breaks with
  | outOfRange _ _ => exact ordinary.elim
  | fault performed =>
    cases went.symm.trans (step_of_error performed)
    have kept : chosen s.ip = false := by
      by_contra is_chosen
      obtain ⟨name, target, rfl, -⟩ :=
        respells.jump fetched (Bool.eq_true_of_not_eq_false is_chosen)
      cases performed
    obtain ⟨m', performed', same⟩ := perform_moved_error respells.labels follows.memory performed
    have fetched' := respells.kept fetched kept
    have went' := step_of_error performed'
    rw [← follows.ip] at fetched' ⊢
    rw [← step_maxOps settings l] at went'
    exact ⟨_, same, reached.runFrom_eq.trans (Ends.failed fetched' room went').runFrom_eq⟩

/-- Lines that load also load when some of their jumps to labels are each written as two lines, a
name that goes on the stack and a jump to what is there. If the limit on the stack is above the
greatest length that it has in the run of the first program, the second program does the same, and
takes one instruction more for each of these jumps that is executed: it finishes with the same stack
and the same output, or fails with the same fault at the same instruction after the same output,
under every limit on instructions that leaves room for this. -/
theorem dynamic_jumps_agree (text : List Program.Line) {p : Program}
    (loaded : Program.load (text.map Program.Line.fixed) = .ok p) :
    ∃ q, Program.load (text.flatMap Program.Line.dynamic) = .ok q ∧
      ∀ (settings : Settings) (input : ι) (output : ω) (observed : τ) (observed' : σ) (d : Nat),
        Deepest settings p (.start input output observed) d → d < settings.maxStack →
        let o := run settings p input output observed
        let other (l : Nat) := run { settings with maxOps := l } q input output observed'
        ∃ visits last, Completes settings p (.start input output observed) visits last ∧
          Ends settings p last o ∧
          let n := visits.length
          let j := visits.countP fun v => Program.respelled text v.index
          (o.failure? = none → o.final.completed = n ∧ ∀ l, n + j ≤ l →
            (other l).failure? = none ∧ (other l).final.completed = n + j ∧
            (other l).final.memory.stack = o.final.memory.stack ∧
            (other l).final.memory.output = o.final.memory.output) ∧
          ∀ i index m fault, o.failure? = some (.instructionFailed i index m fault) →
            m = n ∧ ∀ l, n + j < l →
            (other l).failure? =
              some (.instructionFailed (i.moved (Program.place (Program.respelled text)))
              (Program.place (Program.respelled text) index) (n + j) fault) ∧
            (other l).final.memory.output = o.final.memory.output := by
  obtain ⟨q, loaded', respells⟩ := Program.exists_respells loaded
  refine ⟨q, loaded', ?_⟩
  intro settings input output observed observed' d deepest above o other
  obtain ⟨visits, last, completes, ends⟩ :=
    runFrom_completes settings p (.start input output observed)
  have counted : last.completed = visits.length := completes.completed_eq.trans (Nat.zero_add _)
  have free (others u) (part : Completes settings p (.start input output observed) others u) :
      u.memory.stack.size < settings.maxStack :=
    Nat.lt_of_le_of_lt (deepest.2 ⟨others, u, .completed part, rfl⟩) above
  refine ⟨visits, last, completes, ends, ?_, ?_⟩
  · intro finished
    obtain ⟨ran, ended⟩ := ends.of_finished finished
    have final : o.final = last := congrArg Outcome.final ran
    refine ⟨final ▸ counted, ?_⟩
    intro l room
    obtain ⟨t, reached, follows, completed⟩ := completes.followed respells free observed' room
    have ran' : other l = ⟨none, t⟩ := follows.runFrom_finished respells ended reached
    rw [ran', final]
    exact ⟨rfl, completed, congrArg Memory.stack follows.memory,
      congrArg Memory.output follows.memory⟩
  · intro i index m fault failed
    obtain ⟨rfl, rfl, fetched, -, breaks, went, -⟩ := ends.of_instructionFailed failed
    refine ⟨counted, ?_⟩
    intro l room
    obtain ⟨t, reached, follows, completed⟩ :=
      completes.followed respells free observed' (Nat.le_of_lt room)
    obtain ⟨last', same, ran⟩ :=
      follows.runFrom_failed respells (Program.linked_of_load loaded) fetched breaks went
      reached (completed ▸ room)
    have ran' : other l = _ := ran
    rw [ran', completed]
    exact ⟨rfl, congrArg Memory.output same⟩

theorem dynamic_jumps_agree_over_pop :
    let text : List Program.Line :=
      [.kept "PUSH 'x'", .jump "end" (by decide), .kept "POP", .kept "",
        .kept "LABEL end", .kept "WRITE"]
    let p : Program :=
      ⟨#[.push "x", .jump 3, .pop, .mark, .write], ⟨[("end", 3)], List.pairwise_singleton _ _⟩⟩
    let settings : Settings := { maxStack := 2 }
    Program.load (text.map Program.Line.fixed) = .ok p ∧
      (run settings p ([] : List String)
        (⟨#[]⟩ : Collected) ({} : Statistics)).final.memory.output.values = #["x"] ∧
      ∃ q, Program.load (text.flatMap Program.Line.dynamic) = .ok q ∧ ∀ l, 8 ≤ l →
        (run { settings with maxOps := l } q ([] : List String) (⟨#[]⟩ : Collected) ()).failure? =
          none ∧
        (run { settings with maxOps := l } q ([] : List String)
          (⟨#[]⟩ : Collected) ()).final.memory.output.values =
          #["x"] := by
  intro text p settings
  have loaded : Program.load (text.map Program.Line.fixed) = .ok p := by decide +kernel
  have written :
      (run settings p ([] : List String)
        (⟨#[]⟩ : Collected) ({} : Statistics)).final.memory.output.values = #["x"] := by
    rfl
  obtain ⟨q, loaded', agree⟩ :=
    @dynamic_jumps_agree (List String) Collected Unit Statistics _ _ _ _ text p loaded
  obtain ⟨visits, last, -, -, finished, -⟩ :=
    agree settings ([] : List String) (⟨#[]⟩ : Collected) ({} : Statistics) () _
      (deepest_maxDepth settings p _ _)
      (show 1 < 2 by decide)
  obtain ⟨completed, same⟩ := finished rfl
  refine ⟨loaded, written, q, loaded', ?_⟩
  intro l room
  have four : visits.length = 4 := completed.symm.trans rfl
  have within : visits.length + (visits.countP fun v => Program.respelled text v.index) ≤ l := by
    have few : (visits.countP fun v => Program.respelled text v.index) ≤ visits.length :=
      List.countP_le_length
    omega
  obtain ⟨ended, -, -, output⟩ := same l within
  exact ⟨ended, (congrArg Collected.values output).trans written⟩

end StringStack
