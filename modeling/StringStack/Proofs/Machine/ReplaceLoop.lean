import Mathlib.Tactic.IntervalCases
import StringStack.Proofs.Machine.InstructionLimit
import StringStack.Proofs.Program.Listing
import StringStack.Proofs.Text.ReplaceAll

/-! A program that replaces all occurrences of one text by another in a value that it reads. It
replaces the first occurrence until there is none, and `REPLACEONE` itself leaves the loop. Each
turn of the loop is nine instructions and takes one occurrence away, so the number of instructions
says how many there were. -/
namespace StringStack

namespace ListMachine

variable {ι ω τ : Type} [Source ι] [Sink ω] [Observer τ] {settings : Settings} {p : Program}
  {s t u : State ι ω τ}

/-- A run comes from the first state to the second one in this many instructions. -/
def Advances (settings : Settings) (p : Program) (n : Nat) (s t : State ι ω τ) : Prop :=
  ∀ budget, runFor settings p (budget + n) s = runFor settings p budget t

theorem Advances.trans {m n : Nat} (first : Advances settings p m s t)
    (second : Advances settings p n t u) :
    Advances settings p (m + n) s u := by
  intro budget
  rw [Nat.add_comm m n, ← Nat.add_assoc, first, second]

instance {m n : Nat} : Trans (Advances settings p m : State ι ω τ → State ι ω τ → Prop)
    (Advances settings p n : State ι ω τ → State ι ω τ → Prop) (Advances settings p (m + n)) :=
  ⟨Advances.trans⟩

section Single

variable {i : Instruction} {m after : Memory ι ω Unit} {ip n : Nat}
  (fetched : p.instructions[ip]? = some i)
include fetched

theorem Advances.next (acted : act settings.maxStack p.labels i m = (.ok .next, after)) :
    Advances settings p 1 ⟨m, ip, n⟩ ⟨after, ip + 1, n + 1⟩ := by
  intro budget
  rw [runFor]
  simp only [fetched, step, acted]
  rfl

theorem Advances.jump {target : Nat}
    (acted : act settings.maxStack p.labels i m = (.ok (.jump target), after))
    (inside : target ≤ p.size) : Advances settings p 1 ⟨m, ip, n⟩ ⟨after, target, n + 1⟩ := by
  intro budget
  rw [runFor]
  simp only [fetched, step, acted, if_neg (Nat.not_lt.2 inside)]
  rfl

end Single

end ListMachine

def replaceLoopLines (pattern replacement : String) : List String :=
  ["READ", "LABEL loop", "PUSH 'done'", "PUSH " ++ quote replacement, "PUSH " ++ quote pattern,
    "COPY 4", "REPLACEONE", "SWAP 1 2", "POP", "JMP loop", "LABEL done", "WRITE"]

def replaceLoop (pattern replacement : String) : Program where
  instructions := #[.read, .mark, .push "done", .push replacement, .push pattern, .copy 3,
    .replaceOne, .swap 0 1, .pop, .jump 1, .mark, .write]
  labels := ⟨[("done", 10), ("loop", 1)], by decide⟩

namespace Program

def replaceLoopStatements (pattern replacement : String) : List Statement :=
  [.instruction .read, .label "loop", .instruction (.push "done"), .instruction (.push replacement),
    .instruction (.push pattern), .instruction (.copy 3), .instruction .replaceOne,
    .instruction (.swap 0 1), .instruction .pop, .jumpTo "loop", .label "done",
    .instruction .write]

variable (pattern replacement : String)

theorem replaceLoopLines_eq :
    replaceLoopLines pattern replacement =
      (replaceLoopStatements pattern replacement).map Statement.text := by
  have push (v : String) : "PUSH " ++ quote v = (Statement.instruction (.push v)).text := rfl
  rw [replaceLoopLines, push, push]
  rfl

theorem get?_replaceLoop {name : String} {i : Nat} :
    (replaceLoop pattern replacement).labels.get? name = some i ↔
      name = "done" ∧ i = 10 ∨ name = "loop" ∧ i = 1 := by
  rw [← LabelTable.mem_entries_iff]
  simp [replaceLoop]

theorem label_replaceLoopStatements {name : String} {i : Nat} :
    (replaceLoopStatements pattern replacement)[i]? = some (.label name) ↔
      name = "done" ∧ i = 10 ∨ name = "loop" ∧ i = 1 := by
  constructor
  · intro there
    have inside := (List.getElem?_eq_some_iff.1 there).1
    have inside : i < 12 := inside
    interval_cases i <;> simp_all [replaceLoopStatements]
  · rintro (⟨rfl, rfl⟩ | ⟨rfl, rfl⟩)
    · rfl
    · rfl

theorem means_replaceLoop :
    Means (replaceLoopStatements pattern replacement) (replaceLoop pattern replacement) := by
  refine ⟨rfl, fun name i => ?_, fun i s there => ?_⟩
  · rw [get?_replaceLoop, label_replaceLoopStatements]
  · have inside := (List.getElem?_eq_some_iff.1 there).1
    have inside : i < 12 := inside
    interval_cases i <;> cases there
    all_goals first
      | exact ⟨_, rfl, .instruction _⟩
      | exact ⟨_, rfl, .label _⟩
      | exact ⟨_, rfl, .jumpTo rfl⟩

theorem load_replaceLoop :
    load (replaceLoopLines pattern replacement) = .ok (replaceLoop pattern replacement) := by
  have readable : ∀ s ∈ replaceLoopStatements pattern replacement, s.Readable := by
    simp [replaceLoopStatements, Statement.Readable, Text.Decimal.wordLimit, UInt64.size]
  rw [load_eq_ok_iff, replaceLoopLines_eq, codeLines_text]
  exact ⟨_, mapM_parse_text readable, means_replaceLoop pattern replacement⟩

end Program

namespace ListMachine

abbrev between (stack input : List String) (output : Collected) (ip n : Nat) :
    State (List String) Collected Unit :=
  ⟨⟨stack, input, output, ()⟩, ip, n⟩

abbrev LoopAdvances (settings : Settings) (pattern replacement : String) (n : Nat)
    (s t : State (List String) Collected Unit) : Prop :=
  Advances settings (replaceLoop pattern replacement) n s t

section Turns

variable {settings : Settings} {pattern replacement text replaced : String} (input : List String)
  (output : Collected)
  (n : Nat)

theorem push_next (room : 5 ≤ settings.maxStack) (v : String) {stack : List String}
    (short : stack.length < 5) :
    push settings.maxStack v (⟨stack, input, output, ()⟩ : Memory (List String) Collected Unit) =
      (.ok .next, ⟨v :: stack, input, output, ()⟩) :=
  push_of_lt v (Nat.lt_of_lt_of_le short room)

theorem advances_read (room : 5 ≤ settings.maxStack) :
    LoopAdvances settings pattern replacement 1 (between [] (text :: input) output 0 n)
      (between [text] input output 1 (n + 1)) :=
  .next rfl (push_next _ _ room text (by simp))

theorem advances_operands (room : 5 ≤ settings.maxStack) :
    LoopAdvances settings pattern replacement 5 (between [text] input output 1 n)
      (between [text, pattern, replacement, "done", text] input output 6 (n + 5)) := by
  calc
    LoopAdvances settings pattern replacement 1 (between [text] input output 1 n)
      (between [text] input output 2 (n + 1)) := .next rfl rfl
    LoopAdvances settings pattern replacement 1 _ (between ["done", text] input output 3 (n + 2)) :=
      .next rfl (push_next _ _ room _ (by simp))
    LoopAdvances settings pattern replacement 1 _
      (between [replacement, "done", text] input output 4 (n + 3)) :=
      .next rfl (push_next _ _ room _ (by simp))
    LoopAdvances settings pattern replacement 1 _
        (between [pattern, replacement, "done", text] input output 5 (n + 4)) :=
      .next rfl (push_next _ _ room _ (by simp))
    LoopAdvances settings pattern replacement 1 _
        (between [text, pattern, replacement, "done", text] input output 6 (n + 5)) :=
      .next rfl (push_next _ _ room _ (by simp))

theorem advances_turn (room : 5 ≤ settings.maxStack)
    (found : Text.replaceFirst text pattern replacement = some replaced) :
    LoopAdvances settings pattern replacement 9 (between [text] input output 1 n)
      (between [replaced] input output 1 (n + 9)) := by
  have answer : act settings.maxStack (replaceLoop pattern replacement).labels .replaceOne
      (⟨[text, pattern, replacement, "done", text], input, output, ()⟩ :
        Memory (List String) Collected Unit) =
      (.ok .next, ⟨[replaced, text], input, output, ()⟩) := by
    simp only [act, found]
    rfl
  calc
    LoopAdvances settings pattern replacement 5 (between [text] input output 1 n)
        (between [text, pattern, replacement, "done", text] input output 6 (n + 5)) :=
      advances_operands _ _ _ room
    LoopAdvances settings pattern replacement 1 _
      (between [replaced, text] input output 7 (n + 6)) := .next rfl answer
    LoopAdvances settings pattern replacement 1 _
      (between [text, replaced] input output 8 (n + 7)) := .next rfl rfl
    LoopAdvances settings pattern replacement 1 _
      (between [replaced] input output 9 (n + 8)) := .next rfl rfl
    LoopAdvances settings pattern replacement 1 _ (between [replaced] input output 1 (n + 9)) :=
      .jump rfl rfl (Nat.le_of_ble_eq_true rfl)

theorem advances_exit (room : 5 ≤ settings.maxStack)
    (absent : Text.replaceFirst text pattern replacement = none) :
    LoopAdvances settings pattern replacement 8 (between [text] input output 1 n)
      (between [text] input ⟨output.values.push text⟩ 12 (n + 8)) := by
  have answer : act settings.maxStack (replaceLoop pattern replacement).labels .replaceOne
      (⟨[text, pattern, replacement, "done", text], input, output, ()⟩ :
        Memory (List String) Collected Unit) =
      (.ok (.jump 10), ⟨[text], input, output, ()⟩) := by
    simp only [act, absent]
    rfl
  calc
    LoopAdvances settings pattern replacement 5 (between [text] input output 1 n)
        (between [text, pattern, replacement, "done", text] input output 6 (n + 5)) :=
      advances_operands _ _ _ room
    LoopAdvances settings pattern replacement 1 _ (between [text] input output 10 (n + 6)) :=
      .jump rfl answer (Nat.le_of_ble_eq_true rfl)
    LoopAdvances settings pattern replacement 1 _
      (between [text] input output 11 (n + 7)) := .next rfl rfl
    LoopAdvances settings pattern replacement 1 _
      (between [text] input ⟨output.values.push text⟩ 12 (n + 8)) :=
      .next rfl rfl

theorem advances_loop (room : 5 ≤ settings.maxStack)
    (inert : Text.Inert pattern.toList replacement.toList) (text : String) (n : Nat) :
    LoopAdvances settings pattern replacement (9 * Text.occurrences pattern text + 8)
      (between [text] input output 1 n)
      (between [Text.replaceAll text pattern replacement] input
        ⟨output.values.push (Text.replaceAll text pattern replacement)⟩ 12
        (n + (9 * Text.occurrences pattern text + 8))) := by
  cases first : Text.replaceFirst text pattern replacement with
  | none =>
    obtain ⟨same, nowhere⟩ := Text.replaceAll_of_none first
    rw [same, nowhere]
    exact advances_exit _ _ _ room first
  | some replaced =>
    obtain ⟨same, fewer⟩ := Text.replaceAll_of_some inert first
    -- One occurrence is gone, so the rest of the loop is the same for what is left.
    have rest := (advances_turn _ _ _ room first).trans (advances_loop room inert replaced (n + 9))
    rw [← same, fewer, Nat.mul_succ, Nat.add_right_comm, Nat.add_comm _ 9, ← Nat.add_assoc n]
    exact rest
termination_by Text.occurrences pattern text
decreasing_by omega

end Turns

theorem run_replaceLoop {settings : Settings} {pattern replacement text : String}
    (input : List String) (output : Collected) (room : 5 ≤ settings.maxStack)
    (inert : Text.Inert pattern.toList replacement.toList)
    (time : 9 * Text.occurrences pattern text + 9 ≤ settings.maxOps) :
    run settings (replaceLoop pattern replacement) (text :: input) output () =
      ⟨none, between [Text.replaceAll text pattern replacement] input
        ⟨output.values.push (Text.replaceAll text pattern replacement)⟩ 12
        (9 * Text.occurrences pattern text + 9)⟩ := by
  have whole : LoopAdvances settings pattern replacement (9 * Text.occurrences pattern text + 9)
      (between [] (text :: input) output 0 0)
      (between [Text.replaceAll text pattern replacement] input
        ⟨output.values.push (Text.replaceAll text pattern replacement)⟩ 12
        (9 * Text.occurrences pattern text + 9)) := by
    have parts :=
      (advances_read input output 0 room).trans (advances_loop input output room inert text 1)
    rwa [Nat.add_comm 1] at parts
  obtain ⟨left, budget⟩ := Nat.exists_eq_add_of_le' time
  rw [run, budget, whole left, runFor]
  rfl

end ListMachine

section Evaluation

variable {settings : Settings} {pattern replacement text : String} (input : List String)
  (output : Collected)

theorem run_replaceLoop (room : 5 ≤ settings.maxStack)
    (inert : Text.Inert pattern.toList replacement.toList)
    (time : 9 * Text.occurrences pattern text + 9 ≤ settings.maxOps) :
    let outcome := run settings (replaceLoop pattern replacement) (text :: input) output ()
    outcome.failure? = none ∧ outcome.final.completed = 9 * Text.occurrences pattern text + 9 ∧
      outcome.final.memory.output =
        ⟨output.values.push (Text.replaceAll text pattern replacement)⟩ := by
  intro outcome
  have same : outcome.onLists = ListMachine.run settings (replaceLoop pattern replacement)
    (text :: input) output () :=
    runFor_onLists settings _ settings.maxOps (Nat.zero_le settings.maxStack)
  have ended := same.trans (ListMachine.run_replaceLoop input output room inert time)
  exact ⟨congrArg (·.failure?) ended, congrArg (·.final.completed) ended,
    congrArg (·.final.memory.output) ended⟩

theorem run_replaceLoop_tooLong (room : 5 ≤ settings.maxStack)
    (inert : Text.Inert pattern.toList replacement.toList)
    (time : settings.maxOps < 9 * Text.occurrences pattern text + 9) :
    (run settings (replaceLoop pattern replacement) (text :: input) output ()).failure? =
      some (.tooLong settings.maxOps) := by
  -- Such a run is the beginning of one that has the time, and that one takes all of it.
  let longer : Settings := { settings with maxOps := 9 * Text.occurrences pattern text + 9 }
  have enough : 9 * Text.occurrences pattern text + 9 ≤ longer.maxOps := Nat.le_refl _
  have room : 5 ≤ longer.maxStack := room
  obtain ⟨finished, counted, -⟩ := run_replaceLoop input output room inert enough
  obtain ⟨visits, last, completes, ends⟩ :=
    runFrom_completes longer (replaceLoop pattern replacement)
      (State.start (text :: input) output ())
  have cut := (ends.finished_limited completes finished (Nat.zero_le settings.maxOps)).2
  rw [← ends.final_completed] at cut
  exact cut (Nat.lt_of_lt_of_eq time counted.symm)

/-- Replacing the first occurrence until there is none replaces all occurrences, from left to right
and without overlaps, by a replacement that has no symbol of the pattern and does not bring new ones
together. For every value that is read, this is the one value written, and the run takes nine
instructions for each occurrence and nine more; a run that would take more than can be counted is
cut off. -/
theorem replace_loop_replaces_all {pattern replacement : String} (filled : pattern ≠ "")
    (apart : ∀ c ∈ replacement.toList, c ∉ pattern.toList)
    (gap : replacement ≠ "" ∨ pattern.length = 1) (text : String) :
    let lines := replaceLoopLines pattern replacement
    let count := Text.occurrences pattern text
    (9 * count + 9 < 2 ^ 64 →
      evaluate lines [text] = .ok [Text.replaceAll text pattern replacement] ∧
      ∃ p, Program.load lines = .ok p ∧
        let outcome := run {} p [text] (⟨#[]⟩ : Collected) ()
        outcome.failure? = none ∧ outcome.final.completed = 9 * count + 9) ∧
    (2 ^ 64 ≤ 9 * count + 9 → evaluate lines [text] = .error (.run (.tooLong (2 ^ 64 - 1)))) := by
  intro lines count
  have inert : Text.Inert pattern.toList replacement.toList := by
    refine ⟨by simpa using filled, apart, ?_⟩
    rw [String.length_toList]
    exact gap.imp_left (by simp)
  have room : 5 ≤ ({} : Settings).maxStack := by decide
  have loaded : Program.load lines = .ok (replaceLoop pattern replacement) :=
    Program.load_replaceLoop ..
  constructor
  · intro countable
    obtain ⟨finished, counted, written⟩ :=
      run_replaceLoop [] ⟨#[]⟩ room inert (Nat.le_sub_one_of_lt countable)
    refine ⟨?_, _, loaded, finished, counted⟩
    rw [evaluate, loaded]
    simp only [finished, written]
    rfl
  · intro beyond
    have cut := run_replaceLoop_tooLong [] ⟨#[]⟩ room inert (Nat.lt_of_lt_of_le (by decide) beyond)
    rw [evaluate, loaded]
    simp only [cut]
    rfl

theorem replace_loop_replaces_pairs :
    evaluate (replaceLoopLines "aa" "b") ["aaaaa"] = .ok ["bba"] ∧
    ∃ p, Program.load (replaceLoopLines "aa" "b") = .ok p ∧
      let outcome := run {} p ["aaaaa"] (⟨#[]⟩ : Collected) ()
      outcome.failure? = none ∧ outcome.final.completed = 27 := by
  have met : Text.pass "aa".toList "aaaaa".toList = [none, none, some 'a'] := by
    simp [Text.pass]
  have count : Text.occurrences "aa" "aaaaa" = 2 := by
    rw [Text.occurrences, met]
    rfl
  have all : Text.replaceAll "aaaaa" "aa" "b" = "bba" := by
    rw [Text.replaceAll, met]
    rfl
  have within :=
    (@replace_loop_replaces_all "aa" "b" (by decide) (by simp) (.inl (by decide)) "aaaaa").1
  rw [count, all] at within
  exact within (by decide)

end Evaluation

end StringStack
